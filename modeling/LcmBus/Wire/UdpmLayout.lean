import LcmBus.Lib.Tiling
import LcmBus.Wire.Udpm

/-!
# The layout of a message in datagrams

What `fragments` answers, and what its datagrams hold.

* `Fragments.puts` are the bytes that `next` copies into a head;
* `fragments_cases`: a layout is one datagram that holds everything, or it is `Several`;
* `Several.chain` and `Several.flatMap_body`: the bodies of several fragments tile the payload;
* `decode_whole` and `Several.decode_item`: each datagram decodes to what it was made from.
-/

namespace LcmBus.Udpm

/-! ### Ceiling division -/

theorem le_divCeil_mul {a b : ℕ} (hb : 0 < b) : a ≤ divCeil a b * b := by
  have hdiv := Nat.div_add_mod (a + b - 1) b
  have hmod := Nat.mod_lt (a + b - 1) hb
  rw [divCeil, Nat.mul_comm]
  omega

theorem pred_divCeil_mul_lt {a b : ℕ} (ha : 0 < a) : (divCeil a b - 1) * b < a := by
  have hle := Nat.div_mul_le_self (a + b - 1) b
  rw [divCeil, Nat.sub_mul, Nat.one_mul]
  omega

/-! ### The bytes of a head -/

/-- Byte strings put one behind the other are all there. -/
theorem Head.Holds.foldl {head : Head} {l : Bytes} (h : Head.Holds head l) {puts : List Bytes}
    (hfit : l.length + puts.flatten.length ≤ headMax) :
    Head.Holds (puts.foldl Head.put head) (l ++ puts.flatten) := by
  induction puts generalizing head l with
  | nil => simpa using h
  | cons bytes puts ih =>
    rw [List.flatten_cons, List.length_append] at hfit
    have := ih (h.put bytes (by omega)) (by rw [List.length_append]; omega)
    rwa [List.append_assoc] at this

namespace Fragments

/-- What `next` puts in the head at `index`, one call behind the other. -/
def puts (f : Fragments) (index : ℕ) : List Bytes :=
  if f.count = 1 then [u32ToBe magicShort, u32ToBe f.sequence, f.channel, [0]]
  else [u32ToBe magicLong, u32ToBe f.sequence, u32ToBe (UInt32.ofNat f.payload.length),
    u32ToBe (UInt32.ofNat (f.start index)), u16ToBe (UInt16.ofNat index),
    u16ToBe (UInt16.ofNat f.count)] ++ if index = 0 then [f.channel, [0]] else []

theorem item_fst (f : Fragments) (i : ℕ) : (f.item i).1 = (f.puts i).foldl Head.put Head.empty := by
  rw [item, puts]
  split_ifs <;> rfl

/-- A head takes no more than there is room for. -/
theorem length_puts_le {f : Fragments} (hchannel : f.channel.length ≤ maxChannelLen) (i : ℕ) :
    (f.puts i).flatten.length ≤ headMax := by
  have hmax : maxChannelLen = 63 := rfl
  have hhead : headMax = 84 := rfl
  rw [puts]
  split_ifs <;> simp [hhead] <;> omega

theorem holds_item {f : Fragments} (hchannel : f.channel.length ≤ maxChannelLen) (i : ℕ) :
    Head.Holds (f.item i).1 (f.puts i).flatten := by
  rw [item_fst]
  exact Head.holds_empty.foldl (by simpa using length_puts_le hchannel i)

/-! ### The iterator -/

theorem collect_eq (f : Fragments) {fuel : ℕ} (h : f.count - f.index < fuel) :
    collect fuel f = (List.range' f.index (f.count - f.index)).map f.item := by
  induction fuel generalizing f with
  | zero => omega
  | succ fuel ih =>
    rw [collect]
    by_cases hend : f.index ≥ f.count
    · simp [next, hend, Nat.sub_eq_zero_of_le hend]
    · obtain ⟨left, hleft⟩ : ∃ left, f.count - f.index = left + 1 :=
        ⟨f.count - f.index - 1, by omega⟩
      have hnext : f.next = some (f.item f.index, { f with index := f.index + 1 }) := if_neg hend
      have hrest := ih { f with index := f.index + 1 } (by dsimp only; omega)
      have hcount : f.count - (f.index + 1) = left := by omega
      simp only [hcount] at hrest
      simp only [hnext, hrest, hleft, List.range'_succ, List.map_cons]
      rfl

theorem toList_eq (f : Fragments) (h : f.index = 0) :
    f.toList = (List.range f.count).map f.item := by
  rw [toList, collect_eq f (by omega), h, Nat.sub_zero, List.range_eq_range']

theorem length_toList {f : Fragments} (h : f.index = 0) : f.toList.length = f.count := by
  simp [toList_eq f h]

theorem getElem?_toList {f : Fragments} (h : f.index = 0) {i : ℕ} {d : Head × Bytes} :
    f.toList[i]? = some d ↔ i < f.count ∧ f.item i = d := by
  rw [toList_eq f h, List.getElem?_map, Option.map_eq_some_iff]
  simp [List.getElem?_eq_some_iff]

theorem mem_toList {f : Fragments} (h : f.index = 0) {d : Head × Bytes} :
    d ∈ f.toList ↔ ∃ i < f.count, f.item i = d := by
  simp only [List.mem_iff_getElem?, getElem?_toList h]

/-- Of the datagrams in front of the last one. -/
theorem mem_dropLast_toList {f : Fragments} (h : f.index = 0) {d : Head × Bytes}
    (hd : d ∈ f.toList.dropLast) : ∃ i, i + 1 < f.count ∧ f.item i = d := by
  obtain ⟨i, hi⟩ := List.mem_iff_getElem?.1 hd
  rw [List.getElem?_dropLast] at hi
  split_ifs at hi with hlt
  rw [length_toList h] at hlt
  exact ⟨i, by omega, ((getElem?_toList h).1 hi).2⟩

theorem start_succ (f : Fragments) (i : ℕ) : f.start (i + 1) = f.first + i * f.limit := rfl

/-- The body `next` gives at `index` where there are several. -/
def body (f : Fragments) (index : ℕ) : Bytes :=
  (f.payload.take (min (f.start (index + 1)) f.payload.length)).drop (f.start index)

theorem length_body (f : Fragments) (i : ℕ) :
    (f.body i).length = min (f.start (i + 1)) f.payload.length - f.start i := by
  simp [body]

/-- The message is laid out in more than one fragment. -/
structure Several (f : Fragments) : Prop where
  index_zero : f.index = 0
  channel_le : f.channel.length ≤ maxChannelLen
  payload_le : f.payload.length ≤ maxMessageLen
  first_pos : 0 < f.first
  limit_eq : f.limit = f.first + (f.channel.length + 1)
  two_le : 2 ≤ f.count
  count_le : f.count ≤ 65535
  count_eq : f.count = divCeil (f.channel.length + 1 + f.payload.length) f.limit

namespace Several

variable {f : Fragments} (h : f.Several)
include h

theorem limit_pos : 0 < f.limit := by have := h.limit_eq; omega

theorem start_add (i : ℕ) : f.start (i + 1) + (f.channel.length + 1) = (i + 1) * f.limit := by
  rw [start_succ, Nat.add_mul, Nat.one_mul]
  have := h.limit_eq
  omega

/-- Every fragment begins inside the payload. -/
theorem start_lt {i : ℕ} (hi : i < f.count) : f.start i < f.payload.length := by
  have hlast : (f.count - 1) * f.limit < f.channel.length + 1 + f.payload.length := by
    rw [h.count_eq]
    exact pred_divCeil_mul_lt (by omega)
  have hlimit := h.limit_eq
  have htwo := h.two_le
  cases i with
  | zero =>
    have : 1 * f.limit ≤ (f.count - 1) * f.limit := Nat.mul_le_mul_right _ (by omega)
    have hpos := h.first_pos
    show 0 < f.payload.length
    omega
  | succ i =>
    have : (i + 1) * f.limit ≤ (f.count - 1) * f.limit := Nat.mul_le_mul_right _ (by omega)
    have := h.start_add i
    omega

/-- Behind the last fragment the payload is used up. -/
theorem payload_le_start : f.payload.length ≤ f.start f.count := by
  have hall : f.channel.length + 1 + f.payload.length ≤ f.count * f.limit := by
    conv_rhs => rw [h.count_eq]
    exact le_divCeil_mul h.limit_pos
  have htwo := h.two_le
  have hadd := h.start_add (f.count - 1)
  rw [Nat.sub_add_cancel (by omega)] at hadd
  omega

theorem start_lt_succ (i : ℕ) : f.start i < f.start (i + 1) := by
  cases i with
  | zero => exact (h.first_pos).trans_le (Nat.le_add_right _ _)
  | succ i =>
    have := h.limit_pos
    rw [start_succ, start_succ, Nat.add_mul, Nat.one_mul]
    omega

theorem le_start (i : ℕ) : i ≤ f.start i := by
  induction i with
  | zero => exact Nat.zero_le _
  | succ i ih =>
    have := h.start_lt_succ i
    omega

/-- There are no more fragments than bytes. -/
theorem count_le_payload : f.count ≤ f.payload.length := by
  have htwo := h.two_le
  have hlast := h.start_lt (i := f.count - 1) (by omega)
  have := h.le_start (f.count - 1)
  omega

theorem start_add_length_body {i : ℕ} (hi : i < f.count) :
    f.start i + (f.body i).length = min (f.start (i + 1)) f.payload.length := by
  have := h.start_lt hi
  have := h.start_lt_succ i
  rw [length_body]
  omega

theorem body_pos {i : ℕ} (hi : i < f.count) : 0 < (f.body i).length := by
  have := h.start_add_length_body hi
  have := h.start_lt hi
  have := h.start_lt_succ i
  omega

theorem chain_range {k : ℕ} (hk : k ≤ f.count) :
    Tiling.Chain f.start (fun i => (f.body i).length) 0 (List.range k)
      (min (f.start k) f.payload.length) := by
  induction k with
  | zero => exact (Nat.zero_min _).symm
  | succ k ih =>
    have hlt := h.start_lt (i := k) (by omega)
    rw [List.range_succ]
    refine (ih (by omega)).append ⟨by omega, ?_⟩
    rw [Tiling.chain_nil, Nat.min_eq_left hlt.le]
    exact h.start_add_length_body (by omega)

/-- **The bodies of the fragments tile the payload.** -/
theorem chain : Tiling.Chain f.start (fun i => (f.body i).length) 0 (List.range f.count)
    f.payload.length := by
  have hlast := h.chain_range le_rfl
  rwa [Nat.min_eq_right h.payload_le_start] at hlast

theorem flatMap_body_range {k : ℕ} (hk : k ≤ f.count) :
    (List.range k).flatMap f.body = f.payload.take (min (f.start k) f.payload.length) := by
  induction k with
  | zero => simp [start]
  | succ k ih =>
    have hlt := h.start_lt (i := k) (by omega)
    have hstep := h.start_lt_succ k
    have hsplit := List.take_append_drop (f.start k)
      (f.payload.take (min (f.start (k + 1)) f.payload.length))
    rw [List.take_take, Nat.min_eq_left (by omega)] at hsplit
    rw [List.range_succ, List.flatMap_append, ih (by omega), List.flatMap_singleton,
      Nat.min_eq_left hlt.le]
    exact hsplit

/-- The bodies in order are the payload. -/
theorem flatMap_body : (List.range f.count).flatMap f.body = f.payload := by
  rw [h.flatMap_body_range le_rfl, Nat.min_eq_right h.payload_le_start, List.take_length]

theorem count_ne_one : ¬ f.count = 1 := by have := h.two_le; omega

theorem item_snd (i : ℕ) : (f.item i).2 = f.body i := by
  simp only [item, if_neg h.count_ne_one]
  rfl

/-- The payloads of the datagrams in order are the payload. -/
theorem flatMap_snd : f.toList.flatMap Prod.snd = f.payload := by
  rw [toList_eq f h.index_zero, List.flatMap_map]
  simp only [h.item_snd]
  exact h.flatMap_body

omit h in
/-- The head of a fragment, as bytes. -/
theorem asRef_item (hs : f.Several) (i : ℕ) :
    (f.item i).1.asRef = u32ToBe magicLong ++ u32ToBe f.sequence ++
      u32ToBe (UInt32.ofNat f.payload.length) ++ u32ToBe (UInt32.ofNat (f.start i)) ++
      u16ToBe (UInt16.ofNat i) ++ u16ToBe (UInt16.ofNat f.count) ++
      (if i = 0 then f.channel ++ [0] else []) := by
  rw [(holds_item hs.channel_le i).2.2, puts, if_neg hs.count_ne_one]
  split_ifs <;> simp

end Several

/-- The fragment that goes out at index `i`, on the channel `name`. -/
def fragmentAt (f : Fragments) (name : String) (i : ℕ) : Fragment where
  sequence := f.sequence
  total := UInt32.ofNat f.payload.length
  offset := UInt32.ofNat (f.start i)
  index := UInt16.ofNat i
  count := UInt16.ofNat f.count
  channel := if i = 0 then some name else none
  payload := f.body i

/-- **A fragment comes back from its datagram.** -/
theorem Several.decode_item {f : Fragments} (h : f.Several) {name : String}
    (hname : asBytes name = f.channel) (hvalid : ValidChannel name maxChannelLen) {i : ℕ}
    (hi : i < f.count) :
    decode ((f.item i).1.asRef ++ (f.item i).2) = .ok (.fragment (f.fragmentAt name i)) := by
  have htotal : ¬ (UInt32.ofNat f.payload.length).toNat > maxMessageLen := by
    have hle := h.payload_le
    have hmax : maxMessageLen = 2 ^ 28 := rfl
    rw [UInt32.toNat_ofNat_of_lt' (by show f.payload.length < 2 ^ 32; omega)]
    omega
  have hindex : (UInt16.ofNat i = 0) ↔ i = 0 := by
    have hlt : i < 2 ^ 16 := by have := h.count_le; omega
    rw [← UInt16.toNat_inj, UInt16.toNat_ofNat_of_lt' hlt]
    rfl
  have hne : ¬ (magicLong = magicShort) := by decide
  rw [h.asRef_item, h.item_snd, decode]
  simp only [List.append_assoc]
  rw [readDatagram, Reader.bind_of_ok (Reader.u32_append _ _), if_neg hne, if_pos rfl,
    Reader.bind_of_ok (Reader.u32_append _ _), Reader.bind_of_ok (Reader.u32_append _ _),
    Reader.bind_of_ok (Reader.u32_append _ _), Reader.bind_of_ok (Reader.u16_append _ _),
    Reader.bind_of_ok (Reader.u16_append _ _), if_neg htotal]
  by_cases hzero : i = 0
  · have hchannel := Reader.channel_append hvalid (f.body i)
    rw [hname] at hchannel
    have hread : (some <$> Reader.channel : Reader (Option String))
        (f.channel ++ ([0] ++ f.body i)) = .ok (some name, f.body i) := by
      show (Functor.map some Reader.channel : Reader (Option String)) _ = _
      simp only [Functor.map, StateT.map, List.singleton_append, hchannel]
      rfl
    simp only [hindex, if_pos hzero, List.append_assoc, fragmentAt]
    rw [Reader.bind_of_ok hread]
    rfl
  · simp only [hindex, if_neg hzero, fragmentAt]
    rfl

end Fragments

/-! ### What `fragments` answers -/

/-- The layout of a message that one datagram holds. -/
def wholeLayout (sequence : UInt32) (frame : Frame) : Fragments :=
  { sequence, channel := asBytes frame.channel, payload := frame.payload,
    first := 0, limit := 0, count := 1, index := 0 }

/-- A layout is one datagram that holds everything, or several fragments of the message. -/
theorem fragments_cases {sequence : UInt32} {frame : Frame} {shortMax : ℕ} {f : Fragments}
    (h : fragments sequence frame shortMax = .ok f) :
    ValidChannel frame.channel maxChannelLen ∧
      (f = wholeLayout sequence frame ∨
        f.Several ∧ f.sequence = sequence ∧ f.channel = asBytes frame.channel ∧
          f.payload = frame.payload) := by
  unfold fragments at h
  cases hcheck : checkChannel frame.channel maxChannelLen with
  | error e => simp [hcheck, bind, Except.bind] at h
  | ok u =>
    have hvalid : ValidChannel frame.channel maxChannelLen := checkChannel_ok_iff.1 hcheck
    refine ⟨hvalid, ?_⟩
    simp only [hcheck, bind, Except.bind, pure, Except.pure, throw, throwThe,
      MonadExceptOf.throw] at h
    split_ifs at h with hlong hfits hmany
    · exact .inl (by simpa [wholeLayout] using h.symm)
    · split at h <;> cases h
    · right
      split at h
      · cases h
      · rename_i first hfirst
        simp only [checkedSub, Option.filter_eq_some_iff, decide_eq_true_eq,
          Option.ite_none_right_eq_some, Option.some.injEq] at hfirst
        obtain ⟨⟨hle, hsub⟩, hpos⟩ := hfirst
        have hlimit : shortMax > headerGap := by
          by_contra hsmall
          rw [fragmentMax, if_neg hsmall] at hle
          have := hvalid.length_pos
          omega
        have hmax : fragmentMax shortMax = shortMax - headerGap := if_pos hlimit
        simp only [Except.ok.injEq] at h
        subst h
        have htwo : 2 ≤ divCeil ((asBytes frame.channel).length + 1 + frame.payload.length)
            (fragmentMax shortMax) := by
          have hceil := le_divCeil_mul (a := (asBytes frame.channel).length + 1 +
            frame.payload.length) (b := fragmentMax shortMax) (by omega)
          by_contra hone
          have : divCeil ((asBytes frame.channel).length + 1 + frame.payload.length)
              (fragmentMax shortMax) * fragmentMax shortMax ≤ 1 * fragmentMax shortMax :=
            Nat.mul_le_mul_right _ (by omega)
          omega
        exact ⟨⟨rfl, hvalid.2.2, by dsimp only; omega, hpos, by dsimp only; omega, htwo,
          by dsimp only; omega, rfl⟩, rfl, rfl, rfl⟩

/-- What is put before the payload of a whole message. -/
theorem asRef_wholeLayout {sequence : UInt32} {frame : Frame}
    (hvalid : ValidChannel frame.channel maxChannelLen) :
    ((wholeLayout sequence frame).item 0).1.asRef =
      u32ToBe magicShort ++ u32ToBe sequence ++ asBytes frame.channel ++ [0] := by
  have hputs : (wholeLayout sequence frame).puts 0 =
      [u32ToBe magicShort, u32ToBe sequence, asBytes frame.channel, [0]] := if_pos rfl
  have hroom : (wholeLayout sequence frame).channel.length ≤ maxChannelLen := hvalid.2.2
  rw [(Fragments.holds_item hroom 0).2.2, hputs]
  simp

/-- The one datagram of a whole message decodes to it. -/
theorem decode_whole {sequence : UInt32} {frame : Frame}
    (hvalid : ValidChannel frame.channel maxChannelLen) :
    decode (((wholeLayout sequence frame).item 0).1.asRef ++
      ((wholeLayout sequence frame).item 0).2) = .ok (.whole sequence frame) := by
  rw [asRef_wholeLayout hvalid, decode]
  simp only [List.append_assoc]
  rw [readDatagram, Reader.bind_of_ok (Reader.u32_append _ _), if_pos rfl,
    Reader.bind_of_ok (Reader.u32_append _ _), List.singleton_append,
    Reader.bind_of_ok (Reader.channel_append hvalid _)]
  rfl

end LcmBus.Udpm
