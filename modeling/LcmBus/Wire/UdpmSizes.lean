import LcmBus.Bus.Url
import LcmBus.Wire.UdpmLayout

/-!
# The sizes of datagrams

How many datagrams a message goes out in, how long they are, and which limits are too small for it.

* `spanOf` is what has to go out of a message: its channel, the NUL and its payload;
* `minimumOf` is the limit that `DatagramTooSmall` reports;
* `fragments_eq`: what `fragments` answers, by these two;
* `InRange`: no value is cut down to the bits of its field, and no copy or slice is out of range;
* `fits_the_limit`: the layout of a message, and `refused_where_it_must_be`: the limits it has none for.
-/

namespace LcmBus.Udpm

/-- The bytes of a message with its channel and the NUL. -/
def spanOf (frame : Frame) : ℕ := (asBytes frame.channel).length + 1 + frame.payload.length

/-- The limit that `DatagramTooSmall` reports for a channel. -/
def minimumOf (frame : Frame) : ℕ := (asBytes frame.channel).length + 1 + 1 + headerGap

/-- The layout of a message that one datagram does not hold, for a limit. -/
def severalLayout (sequence : UInt32) (frame : Frame) (shortMax : ℕ) : Fragments :=
  { sequence, channel := asBytes frame.channel, payload := frame.payload
    first := shortMax - headerGap - ((asBytes frame.channel).length + 1)
    limit := shortMax - headerGap
    count := divCeil (spanOf frame) (shortMax - headerGap), index := 0 }

/-- The room of fragment zero behind a channel and its NUL, which are `head` bytes. -/
theorem room_eq (shortMax : ℕ) {head : ℕ} (hhead : 1 ≤ head) :
    (checkedSub (fragmentMax shortMax) head).filter (0 < ·) =
      if shortMax < head + 1 + headerGap then none else some (shortMax - headerGap - head) := by
  rw [checkedSub, fragmentMax]
  by_cases hsmall : shortMax < head + 1 + headerGap
  · rw [if_pos hsmall, Option.filter_eq_none_iff]
    intro first hfirst
    split_ifs at hfirst <;> cases hfirst <;> simp only [decide_eq_true_eq] <;> omega
  · have hlarge : shortMax > headerGap := by omega
    rw [if_neg hsmall, if_pos hlarge, if_pos (by omega)]
    exact Option.filter_some_pos (by simp only [decide_eq_true_eq]; omega)

/-- **What `fragments` answers for a message that may be sent.** -/
theorem fragments_eq {frame : Frame} (hvalid : ValidChannel frame.channel maxChannelLen)
    (hpayload : frame.payload.length ≤ maxMessageLen) (sequence : UInt32) (shortMax : ℕ) :
    fragments sequence frame shortMax =
      if spanOf frame ≤ shortMax then .ok (wholeLayout sequence frame)
      else if shortMax < minimumOf frame then
        .error (.datagramTooSmall shortMax (minimumOf frame))
      else if divCeil (spanOf frame) (shortMax - headerGap) > 65535 then
        .error (.tooManyFragments (divCeil (spanOf frame) (shortMax - headerGap)))
      else .ok (severalLayout sequence frame shortMax) := by
  have hcheck : checkChannel frame.channel maxChannelLen = .ok () := checkChannel_ok_iff.2 hvalid
  unfold fragments
  simp only [hcheck, bind, Except.bind, pure, Except.pure, throw, throwThe, MonadExceptOf.throw]
  rw [if_neg (not_lt.2 hpayload)]
  by_cases hfits : spanOf frame ≤ shortMax
  · rw [if_pos hfits]
    exact if_pos hfits
  rw [if_neg hfits, room_eq shortMax (Nat.le_add_left 1 _), ← minimumOf]
  refine (if_neg hfits).trans ?_
  by_cases hsmall : shortMax < minimumOf frame
  · rw [if_pos hsmall, if_pos hsmall]
  · have hlimit : fragmentMax shortMax = shortMax - headerGap :=
      if_pos (by rw [minimumOf] at hsmall; omega)
    rw [if_neg hsmall, if_neg hsmall, hlimit]
    rfl

/-! ### The limits that are refused -/

theorem divCeil_pos {a b : ℕ} (ha : 0 < a) (hb : 0 < b) : 0 < divCeil a b :=
  Nat.div_pos (by omega) hb

/-- A larger divisor goes no more times. -/
theorem divCeil_le_divCeil {a b c : ℕ} (ha : 0 < a) (hb : 0 < b) (hle : b ≤ c) :
    divCeil a c ≤ divCeil a b := by
  have hall := le_divCeil_mul (a := a) hb
  have hmore : a ≤ divCeil a b * c := hall.trans (Nat.mul_le_mul_left _ hle)
  have hlast := pred_divCeil_mul_lt (b := c) ha
  by_contra hlt
  have : divCeil a b * c ≤ (divCeil a c - 1) * c := Nat.mul_le_mul_right _ (by omega)
  omega

section Refused

variable {frame : Frame} (hvalid : ValidChannel frame.channel maxChannelLen)
  (hpayload : frame.payload.length ≤ maxMessageLen) (sequence : UInt32)
include hvalid hpayload

theorem datagramTooSmall_iff (shortMax limit minimum : ℕ) :
    fragments sequence frame shortMax = .error (.datagramTooSmall limit minimum) ↔
      shortMax < spanOf frame ∧ shortMax < minimumOf frame ∧ limit = shortMax ∧
        minimum = minimumOf frame := by
  rw [fragments_eq hvalid hpayload]
  split_ifs with hfits hsmall hmany <;> simp <;> omega

theorem tooManyFragments_iff (shortMax count : ℕ) :
    fragments sequence frame shortMax = .error (.tooManyFragments count) ↔
      shortMax < spanOf frame ∧ minimumOf frame ≤ shortMax ∧
        count = divCeil (spanOf frame) (shortMax - headerGap) ∧ count > 65535 := by
  rw [fragments_eq hvalid hpayload]
  split_ifs with hfits hsmall hmany <;> simp <;> omega

/-- A layout there is, where the limit is large enough and the fragments are not too many. -/
theorem exists_fragments_iff (shortMax : ℕ) :
    (∃ f, fragments sequence frame shortMax = .ok f) ↔
      spanOf frame ≤ shortMax ∨ minimumOf frame ≤ shortMax ∧
        divCeil (spanOf frame) (shortMax - headerGap) ≤ 65535 := by
  rw [fragments_eq hvalid hpayload]
  split_ifs with hfits hsmall hmany <;> simp <;> omega

end Refused

/-- A message that there is a layout for may be sent. -/
theorem sendable_of_ok {sequence : UInt32} {frame : Frame} {shortMax : ℕ} {f : Fragments}
    (h : fragments sequence frame shortMax = .ok f) :
    ValidChannel frame.channel maxChannelLen ∧ frame.payload.length ≤ maxMessageLen := by
  refine ⟨(fragments_cases h).1, ?_⟩
  have hcheck := checkChannel_ok_iff.2 (fragments_cases h).1
  by_contra hlong
  unfold fragments at h
  simp only [hcheck, bind, Except.bind, throw, throwThe, MonadExceptOf.throw] at h
  rw [if_pos (not_le.1 hlong)] at h
  cases h

/-- A layout is one datagram or several, and how many is said by the span and the limit. -/
theorem layout_of_ok {sequence : UInt32} {frame : Frame} {shortMax : ℕ} {f : Fragments}
    (h : fragments sequence frame shortMax = .ok f) :
    (spanOf frame ≤ shortMax ∧ f = wholeLayout sequence frame) ∨
      (shortMax < spanOf frame ∧ minimumOf frame ≤ shortMax ∧
        f = severalLayout sequence frame shortMax ∧ f.Several) := by
  obtain ⟨hvalid, hpayload⟩ := sendable_of_ok h
  have hsame := h
  rw [fragments_eq hvalid hpayload] at hsame
  split_ifs at hsame with hfits hsmall hmany
  · exact .inl ⟨hfits, (Except.ok.inj hsame).symm⟩
  · refine .inr ⟨by omega, by omega, (Except.ok.inj hsame).symm, ?_⟩
    obtain ⟨-, rfl | ⟨hseveral, -⟩⟩ := fragments_cases h
    · have hcount := congrArg Fragments.limit (Except.ok.inj hsame)
      simp only [severalLayout, wholeLayout, minimumOf] at hcount hsmall
      omega
    · exact hseveral

/-- The number of datagrams of a layout. -/
theorem length_toList_of_ok {sequence : UInt32} {frame : Frame} {shortMax : ℕ} {f : Fragments}
    (h : fragments sequence frame shortMax = .ok f) :
    f.toList.length = f.count ∧
      f.count = if spanOf frame ≤ shortMax then 1 else divCeil (spanOf frame) (shortMax - headerGap) := by
  rcases layout_of_ok h with ⟨hfits, rfl⟩ | ⟨hlong, -, rfl, -⟩
  · rw [if_pos hfits]
    exact ⟨Fragments.length_toList rfl, rfl⟩
  · rw [if_neg (by omega)]
    exact ⟨Fragments.length_toList rfl, rfl⟩

/-- **The datagram limit is refused only where it must be, and more room never hurts.** -/
theorem refused_where_it_must_be {frame : Frame} (hvalid : ValidChannel frame.channel maxChannelLen)
    (hpayload : frame.payload.length ≤ maxMessageLen) (sequence : UInt32) :
    (∀ shortMax limit minimum,
      fragments sequence frame shortMax = .error (.datagramTooSmall limit minimum) ↔
        shortMax < spanOf frame ∧ shortMax < minimumOf frame ∧ limit = shortMax ∧
          minimum = minimumOf frame) ∧
    (∀ limit minimum, fragments sequence frame (minimumOf frame) ≠
      .error (.datagramTooSmall limit minimum)) ∧
    (∀ shortMax count, fragments sequence frame shortMax = .error (.tooManyFragments count) ↔
      shortMax < spanOf frame ∧ minimumOf frame ≤ shortMax ∧
        count = divCeil (spanOf frame) (shortMax - headerGap) ∧ count > 65535) ∧
    (∀ shortMax, (∃ f, fragments sequence frame shortMax = .ok f) ∨
      (∃ limit minimum, fragments sequence frame shortMax = .error (.datagramTooSmall limit minimum)) ∨
      ∃ count, fragments sequence frame shortMax = .error (.tooManyFragments count)) ∧
    ∀ shortMax more f, shortMax ≤ more → fragments sequence frame shortMax = .ok f →
      ∃ g, fragments sequence frame more = .ok g ∧ g.toList.length ≤ f.toList.length := by
  refine ⟨datagramTooSmall_iff hvalid hpayload sequence, fun limit minimum hsmall => ?_,
    tooManyFragments_iff hvalid hpayload sequence, fun shortMax => ?_, fun shortMax more f hle hf => ?_⟩
  · have := (datagramTooSmall_iff hvalid hpayload sequence _ _ _).1 hsmall
    omega
  · rw [fragments_eq hvalid hpayload]
    split_ifs
    · exact .inl ⟨_, rfl⟩
    · exact .inr (.inl ⟨_, _, rfl⟩)
    · exact .inr (.inr ⟨_, rfl⟩)
    · exact .inl ⟨_, rfl⟩
  · have hspan : 0 < spanOf frame := by rw [spanOf]; omega
    have hgap : headerGap + 2 ≤ minimumOf frame := by rw [minimumOf]; omega
    have hfew : minimumOf frame ≤ shortMax → divCeil (spanOf frame) (more - headerGap) ≤
        divCeil (spanOf frame) (shortMax - headerGap) := fun hmin =>
      divCeil_le_divCeil hspan (by omega) (by omega)
    have hok := (exists_fragments_iff hvalid hpayload sequence shortMax).1 ⟨f, hf⟩
    obtain ⟨g, hg⟩ := (exists_fragments_iff hvalid hpayload sequence more).2 (by
      rcases hok with hfits | ⟨hmin, hmany⟩
      · exact .inl (hfits.trans hle)
      · have := hfew hmin
        exact .inr ⟨hmin.trans hle, by omega⟩)
    refine ⟨g, hg, ?_⟩
    rw [(length_toList_of_ok hf).1, (length_toList_of_ok hg).1, (length_toList_of_ok hf).2,
      (length_toList_of_ok hg).2]
    split_ifs with hfits hfits'
    · exact le_rfl
    · exact divCeil_pos hspan (by omega)
    · omega
    · exact hfew (by omega)

/-- A message of twenty bytes, in more and in fewer datagrams. -/
theorem refused_where_it_must_be_of_twenty :
    ∃ f g, fragments 7 ⟨"A", List.replicate 20 1⟩ 16 = .ok f ∧
      fragments 7 ⟨"A", List.replicate 20 1⟩ 20 = .ok g ∧ g.toList.length ≤ f.toList.length := by
  obtain ⟨g, hg, hfewer⟩ := (@refused_where_it_must_be ⟨"A", List.replicate 20 1⟩
    (by decide) (by decide) 7).2.2.2.2 16 20 _ (by decide) (by rfl)
  exact ⟨_, g, by rfl, hg, hfewer⟩

/-! ### The sizes -/

namespace Fragments

/-- `Iterator::size_hint`, and so the `len` of the iterator. -/
def sizeHint (f : Fragments) : ℕ × Option ℕ :=
  let left := f.count - f.index
  (left, some left)

/-- Where each value is cut down to the bits of its field, nothing is cut off, and where bytes are taken
or put, they are there and have room. -/
structure InRange (f : Fragments) : Prop where
  total : f.payload.length < 2 ^ 32
  count : f.count < 2 ^ 16
  index : ∀ i < f.count, i < 2 ^ 16
  offset : ∀ i < f.count, f.start i < 2 ^ 32
  slice : f.count ≠ 1 → ∀ i < f.count, f.start i ≤ min (f.start (i + 1)) f.payload.length
  copy : ∀ i < f.count, ∀ before bytes after, f.puts i = before ++ bytes :: after →
    bytes.length < 2 ^ 8 ∧ (before.foldl Head.put Head.empty).bytes.length = headMax ∧
      (before.foldl Head.put Head.empty).len.toNat + bytes.length ≤ headMax
  asRef : ∀ i < f.count, (f.item i).1.len.toNat ≤ (f.item i).1.bytes.length

/-- What is put in a head is within it. -/
theorem copy_inRange {f : Fragments} (hchannel : f.channel.length ≤ maxChannelLen) {i : ℕ}
    {before after : List Bytes} {bytes : Bytes} (hputs : f.puts i = before ++ bytes :: after) :
    bytes.length < 2 ^ 8 ∧ (before.foldl Head.put Head.empty).bytes.length = headMax ∧
      (before.foldl Head.put Head.empty).len.toNat + bytes.length ≤ headMax := by
  have hall := length_puts_le hchannel i
  have hhead : headMax = 84 := rfl
  rw [hputs, List.flatten_append, List.flatten_cons, List.length_append, List.length_append] at hall
  obtain ⟨hsize, hlen, -⟩ := Head.holds_empty.foldl
    (show ([] : Bytes).length + before.flatten.length ≤ headMax by rw [List.length_nil]; omega)
  rw [List.nil_append] at hlen
  exact ⟨by omega, hsize, by omega⟩

theorem asRef_inRange {f : Fragments} (hchannel : f.channel.length ≤ maxChannelLen) (i : ℕ) :
    (f.item i).1.len.toNat ≤ (f.item i).1.bytes.length := by
  obtain ⟨hsize, hlen, -⟩ := holds_item hchannel i
  rw [hsize, hlen]
  exact length_puts_le hchannel i

theorem Several.inRange {f : Fragments} (h : f.Several) : f.InRange where
  total := h.payload_le.trans_lt (by decide)
  count := h.count_le.trans_lt (by decide)
  index i hi := (hi.trans_le h.count_le).trans (by decide)
  offset i hi := ((h.start_lt hi).trans_le h.payload_le).trans (by decide)
  slice _ i hi := le_min (h.start_lt_succ i).le (h.start_lt hi).le
  copy i _ _ _ _ := copy_inRange h.channel_le
  asRef i _ := asRef_inRange h.channel_le i

/-- A datagram of several, with its head. -/
theorem Several.length_datagram {f : Fragments} (h : f.Several) {i : ℕ} (hi : i < f.count) :
    (f.item i).1.asRef.length + (f.item i).2.length ≤ headerLong + f.limit ∧
      (i + 1 < f.count →
        (f.item i).1.asRef.length + (f.item i).2.length = headerLong + f.limit) := by
  have hhead : (f.item i).1.asRef.length =
      headerLong + if i = 0 then f.channel.length + 1 else 0 := by
    rw [h.asRef_item]
    split_ifs
    · simp only [List.length_append, length_u32ToBe, length_u16ToBe, List.length_singleton, headerLong]
    · simp [headerLong]
  have hroom : f.start (i + 1) - f.start i + (if i = 0 then f.channel.length + 1 else 0) =
      f.limit := by
    have hlimit := h.limit_eq
    cases i with
    | zero => simp [start, hlimit]
    | succ i =>
      simp only [start_succ, Nat.add_mul, Nat.one_mul, Nat.succ_ne_zero, if_false]
      omega
  rw [hhead, h.item_snd, length_body]
  refine ⟨by omega, fun hmore => ?_⟩
  have := h.start_lt hmore
  omega

/-- The values in the head of a fragment. -/
theorem Several.decode_item_values {f : Fragments} (h : f.Several) {name : String}
    (hname : asBytes name = f.channel) (hvalid : ValidChannel name maxChannelLen) {i : ℕ}
    (hi : i < f.count) :
    ∃ g : Fragment, decode ((f.item i).1.asRef ++ (f.item i).2) = .ok (.fragment g) ∧
      g.total.toNat = f.payload.length ∧ g.offset.toNat = f.start i ∧ g.index.toNat = i ∧
      g.count.toNat = f.count ∧ g.payload = (f.item i).2 := by
  have hrange := h.inRange
  exact ⟨_, h.decode_item hname hvalid hi, UInt32.toNat_ofNat_of_lt' hrange.total,
    UInt32.toNat_ofNat_of_lt' (hrange.offset i hi), UInt16.toNat_ofNat_of_lt' (hrange.index i hi),
    UInt16.toNat_ofNat_of_lt' hrange.count, (h.item_snd i).symm⟩

/-- A fragment begins behind the bodies of those before it. -/
theorem Several.start_eq_sum {f : Fragments} (h : f.Several) {i : ℕ} (hi : i < f.count) :
    f.start i = (((List.range i).map f.item).map fun d => d.2.length).sum := by
  have hend := (h.chain_range hi.le).end_eq
  rw [Nat.min_eq_left (h.start_lt hi).le, Nat.zero_add] at hend
  rw [hend, List.map_map]
  simp only [Function.comp_def, h.item_snd]

end Fragments

/-- A datagram as it is handed to the socket. -/
def datagramLength (datagram : Head × Bytes) : ℕ := datagram.1.asRef.length + datagram.2.length

/-- The layout of a message that goes out whole. -/
theorem wholeLayout_inRange {sequence : UInt32} {frame : Frame}
    (hvalid : ValidChannel frame.channel maxChannelLen)
    (hpayload : frame.payload.length ≤ maxMessageLen) : (wholeLayout sequence frame).InRange where
  total := hpayload.trans_lt (by decide)
  count := show 1 < 2 ^ 16 by decide
  index i hi := lt_trans (show i < 1 from hi) (by decide)
  offset i hi := by
    obtain rfl : i = 0 := Nat.lt_one_iff.1 hi
    exact show 0 < 2 ^ 32 by decide
  slice hno := absurd rfl hno
  copy i _ _ _ _ := Fragments.copy_inRange hvalid.2.2
  asRef i _ := Fragments.asRef_inRange (show (wholeLayout sequence frame).channel.length ≤ _ from
    hvalid.2.2) i

theorem toList_wholeLayout (sequence : UInt32) (frame : Frame) :
    (wholeLayout sequence frame).toList = [(wholeLayout sequence frame).item 0] :=
  Fragments.toList_eq _ rfl

/-- The one datagram of a message is its short header and its span. -/
theorem datagramLength_whole {sequence : UInt32} {frame : Frame}
    (hvalid : ValidChannel frame.channel maxChannelLen) :
    datagramLength ((wholeLayout sequence frame).item 0) = 8 + spanOf frame := by
  rw [datagramLength, asRef_wholeLayout hvalid,
    show ((wholeLayout sequence frame).item 0).2 = frame.payload from rfl]
  simp only [List.length_append, length_u32ToBe, List.length_singleton, spanOf]
  omega

/-- A datagram of several, for the limit. -/
theorem datagramLength_several {sequence : UInt32} {frame : Frame} {shortMax : ℕ}
    (hmin : minimumOf frame ≤ shortMax) (h : (severalLayout sequence frame shortMax).Several) {i : ℕ}
    (hi : i < (severalLayout sequence frame shortMax).count) :
    datagramLength ((severalLayout sequence frame shortMax).item i) ≤ shortMax + 8 ∧
      (i + 1 < (severalLayout sequence frame shortMax).count →
        datagramLength ((severalLayout sequence frame shortMax).item i) = shortMax + 8) := by
  have hgap : headerGap = 12 := rfl
  have hlong : headerLong = 20 := rfl
  have hlimit : (severalLayout sequence frame shortMax).limit = shortMax - headerGap := rfl
  obtain ⟨hle, heq⟩ := h.length_datagram hi
  rw [minimumOf] at hmin
  exact ⟨by rw [datagramLength]; omega, fun hmore => by rw [datagramLength, heq hmore]; omega⟩

/-- The datagrams of several: each one has a payload and says where that begins, and all but the last are
as long as may be. -/
theorem datagrams_several {frame : Frame} {sequence : UInt32} {shortMax : ℕ}
    (hvalid : ValidChannel frame.channel maxChannelLen) (hmin : minimumOf frame ≤ shortMax)
    (h : (severalLayout sequence frame shortMax).Several) :
    let list := (severalLayout sequence frame shortMax).toList
    (∀ d ∈ list, d.2 ≠ []) ∧ (∀ d ∈ list.dropLast, datagramLength d = shortMax + 8) ∧
    ∀ i d, list[i]? = some d → ∃ g : Fragment,
      decode (d.1.asRef ++ d.2) = .ok (.fragment g) ∧ g.total.toNat = frame.payload.length ∧
      g.offset.toNat = ((list.take i).map fun d => d.2.length).sum ∧ g.index.toNat = i ∧
      g.count.toNat = list.length ∧ g.payload = d.2 := by
  intro list
  refine ⟨fun d hd => ?_, fun d hd => ?_, fun i d hd => ?_⟩
  · obtain ⟨i, hi, rfl⟩ := (Fragments.mem_toList h.index_zero).1 hd
    rw [h.item_snd]
    exact List.length_pos_iff.1 (h.body_pos hi)
  · obtain ⟨i, hi, rfl⟩ := Fragments.mem_dropLast_toList h.index_zero hd
    exact (datagramLength_several hmin h (Nat.lt_of_succ_lt hi)).2 hi
  · obtain ⟨hi, rfl⟩ := (Fragments.getElem?_toList h.index_zero).1 hd
    obtain ⟨fragment, hdecode, htotal, hoffset, hindex, hcount, hbody⟩ :=
      h.decode_item_values rfl hvalid hi
    refine ⟨fragment, hdecode, htotal, ?_, hindex,
      hcount.trans (Fragments.length_toList h.index_zero).symm, hbody⟩
    rw [hoffset, h.start_eq_sum hi, show list = _ from Fragments.toList_eq _ h.index_zero,
      ← List.map_take, List.take_range, Nat.min_eq_left hi.le]

/-- **The layout of a message in datagrams.**  None is longer than its limit and the short header, so none
is longer than a datagram of IPv4 where a URL admits the limit.  The bodies are the payload.  One datagram
goes out where it holds the message, and else as many as the ceiling says, which the iterator and each head
say too; each of them has a payload, all but the last are as long as may be, and each head says where its
payload begins.  No value is cut off and nothing is copied out of range. -/
theorem fits_the_limit {sequence : UInt32} {frame : Frame} {shortMax : ℕ} {f : Fragments}
    (h : fragments sequence frame shortMax = .ok f) :
    (∀ d ∈ f.toList, datagramLength d ≤ shortMax + 8) ∧
    (BusUrl.AdmitsShortMax shortMax → ∀ d ∈ f.toList, datagramLength d ≤ BusUrl.maxUdpPayload) ∧
    f.toList.flatMap Prod.snd = frame.payload ∧
    f.sizeHint = (f.toList.length, some f.toList.length) ∧
    (spanOf frame ≤ shortMax → f.toList.length = 1) ∧
    (shortMax < spanOf frame →
      f.toList.length = divCeil (spanOf frame) (shortMax - 12) ∧ 2 ≤ f.toList.length ∧
      (∀ d ∈ f.toList, d.2 ≠ []) ∧ (∀ d ∈ f.toList.dropLast, datagramLength d = shortMax + 8) ∧
      ∀ i d, f.toList[i]? = some d → ∃ g : Fragment,
        decode (d.1.asRef ++ d.2) = .ok (.fragment g) ∧ g.total.toNat = frame.payload.length ∧
        g.offset.toNat = ((f.toList.take i).map fun d => d.2.length).sum ∧ g.index.toNat = i ∧
        g.count.toNat = f.toList.length ∧ g.payload = d.2) ∧
    f.InRange := by
  obtain ⟨hvalid, hpayload⟩ := sendable_of_ok h
  suffices hall : (∀ d ∈ f.toList, datagramLength d ≤ shortMax + 8) ∧ _ from
    ⟨hall.1, fun hadmits d hd => (hall.1 d hd).trans (by
      have := hadmits.2
      rw [BusUrl.maxShortMax] at this
      rw [BusUrl.maxUdpPayload] at *
      omega), hall.2⟩
  rcases layout_of_ok h with ⟨hfits, rfl⟩ | ⟨hlong, hmin, rfl, hseveral⟩
  · rw [toList_wholeLayout]
    refine ⟨?_, ?_, rfl, fun _ => rfl, fun hbad => absurd hbad (by omega),
      wholeLayout_inRange hvalid hpayload⟩
    · intro d hd
      rw [List.mem_singleton.1 hd, datagramLength_whole hvalid]
      omega
    · exact List.append_nil _
  · have hlength : (severalLayout sequence frame shortMax).toList.length = _ :=
      Fragments.length_toList rfl
    refine ⟨fun d hd => ?_, hseveral.flatMap_snd, ?_, fun hbad => absurd hbad (by omega), fun _ =>
      ⟨hlength, hlength ▸ hseveral.two_le, datagrams_several hvalid hmin hseveral⟩, hseveral.inRange⟩
    · obtain ⟨i, hi, rfl⟩ := (Fragments.mem_toList rfl).1 hd
      exact (datagramLength_several hmin hseveral hi).1
    · rw [hlength]
      rfl

/-- Twenty bytes in datagrams of twenty-four bytes. -/
theorem fits_the_limit_of_twenty : ∃ f, fragments 7 ⟨"A", List.replicate 20 5⟩ 16 = .ok f ∧
    f.toList.length = 6 ∧ ∀ d ∈ f.toList, datagramLength d ≤ 24 :=
  ⟨_, rfl, rfl, (@fits_the_limit 7 ⟨"A", List.replicate 20 5⟩ 16 _ rfl).1⟩

end LcmBus.Udpm
