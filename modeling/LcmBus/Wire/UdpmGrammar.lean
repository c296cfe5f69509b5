import LcmBus.Wire.UdpmSizes

/-!
# The grammar of a datagram

What `udpm::decode` accepts, byte for byte.

* `wholeBytes` and `Fragment.bytes`: a datagram as its fields lie in it;
* `Fragment.WellFormed`: a fragment that the protocol has a datagram for;
* `decode_eq_whole_iff` and `decode_eq_fragment_iff`: the decoder gives the fields of a datagram where
  it is one of these, and nothing else;
* `encode_wholeBytes` and `Fragments.Several.bytes_fragmentAt`: these are the datagrams that the encoder writes.
-/

namespace LcmBus.Udpm

/-- The datagram of a whole message. -/
def wholeBytes (sequence : UInt32) (frame : Frame) : Bytes :=
  u32ToBe magicShort ++ u32ToBe sequence ++ asBytes frame.channel ++ [0] ++ frame.payload

namespace Fragment

/-- The name of a fragment, with its NUL, where it has one. -/
def channelBytes (f : Fragment) : Bytes :=
  match f.channel with
  | none => []
  | some name => asBytes name ++ [0]

/-- The datagram of a fragment. -/
def bytes (f : Fragment) : Bytes :=
  u32ToBe magicLong ++ u32ToBe f.sequence ++ u32ToBe f.total ++ u32ToBe f.offset ++
    u16ToBe f.index ++ u16ToBe f.count ++ f.channelBytes ++ f.payload

/-- A fragment of a message within the limit, with a name where it is fragment zero and none
elsewhere. -/
def WellFormed (f : Fragment) : Prop :=
  f.total.toNat ≤ maxMessageLen ∧
    match f.channel with
    | none => f.index ≠ 0
    | some name => f.index = 0 ∧ ValidChannel name maxChannelLen

end Fragment

/-! ### What the reader gives -/

variable {d : Bytes}

theorem decode_eq_ok_iff {found : Datagram} :
    decode d = .ok found ↔ ∃ rest, readDatagram d = .ok (found, rest) := by
  rw [decode]
  cases readDatagram d with
  | error e => simp [Except.map]
  | ok read => simp [Except.map, Prod.ext_iff]

theorem rest_eq_ok {l l' payload : Bytes} :
    Reader.rest l = .ok (payload, l') ↔ payload = l ∧ l' = [] := by
  rw [Reader.rest, Except.ok.injEq, Prod.mk.injEq, eq_comm, @eq_comm _ _ l']

theorem magicLong_ne_magicShort : magicLong ≠ magicShort := by decide

theorem map_some_eq_ok {α : Type} {m : Reader α} {l l' : Bytes} {found : Option α} :
    (some <$> m) l = .ok (found, l') ↔ ∃ a, found = some a ∧ m l = .ok (a, l') := by
  rw [map_eq_pure_bind, Reader.bind_eq_ok]
  constructor
  · rintro ⟨a, rest, hm, hpure⟩
    obtain ⟨rfl, rfl⟩ := Reader.pure_eq_ok.1 hpure
    exact ⟨a, rfl, hm⟩
  · rintro ⟨a, rfl, hm⟩
    exact ⟨a, l', hm, Reader.pure_eq_ok.2 ⟨rfl, rfl⟩⟩

/-- What a datagram was, where it was read. -/
theorem of_readDatagram {found : Datagram} {rest : Bytes} (h : readDatagram d = .ok (found, rest)) :
    (∃ sequence frame, found = .whole sequence frame ∧
      ValidChannel frame.channel maxChannelLen ∧ d = wholeBytes sequence frame) ∨
    ∃ f : Fragment, found = .fragment f ∧ f.WellFormed ∧ d = f.bytes := by
  obtain ⟨magic, l, hmagic, h⟩ := Reader.bind_eq_ok.1 h
  rw [Reader.u32_eq_ok] at hmagic
  split_ifs at h with hshort hlong
  · left
    obtain ⟨sequence, l₁, hsequence, h⟩ := Reader.bind_eq_ok.1 h
    obtain ⟨channel, l₂, hchannel, h⟩ := Reader.bind_eq_ok.1 h
    obtain ⟨payload, l₃, hpayload, h⟩ := Reader.bind_eq_ok.1 h
    rw [Reader.u32_eq_ok] at hsequence
    obtain ⟨hvalid, hname⟩ := Reader.channel_eq_ok.1 hchannel
    obtain ⟨rfl, -⟩ := rest_eq_ok.1 hpayload
    obtain ⟨rfl, -⟩ := Reader.pure_eq_ok.1 h
    refine ⟨sequence, ⟨channel, payload⟩, rfl, hvalid, ?_⟩
    rw [hmagic, hsequence, hname, hshort]
    simp [wholeBytes]
  · right
    obtain ⟨sequence, l₁, hsequence, h⟩ := Reader.bind_eq_ok.1 h
    obtain ⟨total, l₂, htotal, h⟩ := Reader.bind_eq_ok.1 h
    obtain ⟨offset, l₃, hoffset, h⟩ := Reader.bind_eq_ok.1 h
    obtain ⟨index, l₄, hindex, h⟩ := Reader.bind_eq_ok.1 h
    obtain ⟨count, l₅, hcount, h⟩ := Reader.bind_eq_ok.1 h
    rw [Reader.u32_eq_ok] at hsequence htotal hoffset
    rw [Reader.u16_eq_ok] at hindex hcount
    by_cases hlarge : total.toNat > maxMessageLen
    · rw [if_pos hlarge] at h
      cases h
    rw [if_neg hlarge] at h
    dsimp only at h
    by_cases hzero : index = 0
    · rw [if_pos hzero] at h
      obtain ⟨channel, l₆, hchannel, h⟩ := Reader.bind_eq_ok.1 h
      obtain ⟨name, rfl, hname⟩ := map_some_eq_ok.1 hchannel
      obtain ⟨payload, l₇, hpayload, h⟩ := Reader.bind_eq_ok.1 h
      obtain ⟨hvalid, hname⟩ := Reader.channel_eq_ok.1 hname
      obtain ⟨rfl, -⟩ := rest_eq_ok.1 hpayload
      obtain ⟨rfl, -⟩ := Reader.pure_eq_ok.1 h
      refine ⟨_, rfl, ⟨not_lt.1 hlarge, hzero, hvalid⟩, ?_⟩
      rw [hmagic, hsequence, htotal, hoffset, hindex, hcount, hname, hlong]
      simp [Fragment.bytes, Fragment.channelBytes]
    · rw [if_neg hzero, pure_bind] at h
      obtain ⟨payload, l₆, hpayload, h⟩ := Reader.bind_eq_ok.1 h
      obtain ⟨rfl, -⟩ := rest_eq_ok.1 hpayload
      obtain ⟨rfl, -⟩ := Reader.pure_eq_ok.1 h
      refine ⟨_, rfl, ⟨not_lt.1 hlarge, hzero⟩, ?_⟩
      rw [hmagic, hsequence, htotal, hoffset, hindex, hcount, hlong]
      simp [Fragment.bytes, Fragment.channelBytes]
  · cases h

/-- A whole message comes back from its datagram. -/
theorem readDatagram_wholeBytes {frame : Frame} (hvalid : ValidChannel frame.channel maxChannelLen)
    (sequence : UInt32) : readDatagram (wholeBytes sequence frame) = .ok (.whole sequence frame, []) := by
  rw [wholeBytes]
  simp only [List.append_assoc, List.singleton_append]
  rw [readDatagram, Reader.bind_of_ok (Reader.u32_append _ _), if_pos rfl,
    Reader.bind_of_ok (Reader.u32_append _ _), Reader.bind_of_ok (Reader.channel_append hvalid _)]
  rfl

/-- And a fragment from its own. -/
theorem Fragment.WellFormed.readDatagram_bytes {f : Fragment} (h : f.WellFormed) :
    readDatagram f.bytes = .ok (.fragment f, []) := by
  obtain ⟨htotal, hchannel⟩ := h
  rw [bytes]
  simp only [List.append_assoc]
  rw [readDatagram, Reader.bind_of_ok (Reader.u32_append _ _), if_neg magicLong_ne_magicShort,
    if_pos rfl, Reader.bind_of_ok (Reader.u32_append _ _), Reader.bind_of_ok (Reader.u32_append _ _),
    Reader.bind_of_ok (Reader.u32_append _ _), Reader.bind_of_ok (Reader.u16_append _ _),
    Reader.bind_of_ok (Reader.u16_append _ _), if_neg (not_lt.2 htotal)]
  rcases f with ⟨sequence, total, offset, index, count, _ | name, payload⟩
  · rw [if_neg (show ¬ index = 0 from hchannel)]
    rfl
  · obtain ⟨rfl, hvalid⟩ : index = 0 ∧ ValidChannel name maxChannelLen := hchannel
    have hread : (some <$> Reader.channel : Reader (Option String))
        (asBytes name ++ 0 :: payload) = .ok (some name, payload) :=
      map_some_eq_ok.2 ⟨name, rfl, Reader.channel_append hvalid payload⟩
    simp only [channelBytes, List.append_assoc, List.singleton_append, if_pos]
    rw [Reader.bind_of_ok hread]
    rfl

/-- **A whole message is read from its datagram, and from no other.** -/
theorem decode_eq_whole_iff {sequence : UInt32} {frame : Frame} :
    decode d = .ok (.whole sequence frame) ↔
      ValidChannel frame.channel maxChannelLen ∧ d = wholeBytes sequence frame := by
  rw [decode_eq_ok_iff]
  constructor
  · rintro ⟨rest, h⟩
    rcases of_readDatagram h with ⟨_, _, heq, hwhole⟩ | ⟨_, heq, -⟩
    · cases heq
      exact hwhole
    · cases heq
  · rintro ⟨hvalid, rfl⟩
    exact ⟨[], readDatagram_wholeBytes hvalid sequence⟩

/-- **And so is a fragment.** -/
theorem decode_eq_fragment_iff {f : Fragment} :
    decode d = .ok (.fragment f) ↔ f.WellFormed ∧ d = f.bytes := by
  rw [decode_eq_ok_iff]
  constructor
  · rintro ⟨rest, h⟩
    rcases of_readDatagram h with ⟨_, _, heq, -⟩ | ⟨_, heq, hfragment⟩
    · cases heq
    · cases heq
      exact hfragment
  · rintro ⟨hwell, rfl⟩
    exact ⟨[], hwell.readDatagram_bytes⟩

/-! ### What the encoder writes -/

theorem length_wholeBytes (sequence : UInt32) (frame : Frame) :
    (wholeBytes sequence frame).length = 8 + spanOf frame := by
  simp [wholeBytes, spanOf]
  omega

/-- **The encoder writes that datagram**, for every limit that the message keeps to. -/
theorem encode_wholeBytes {frame : Frame} (hvalid : ValidChannel frame.channel maxChannelLen)
    (hpayload : frame.payload.length ≤ maxMessageLen) (sequence : UInt32) {shortMax : ℕ}
    (hfits : spanOf frame ≤ shortMax) :
    encode sequence frame shortMax = .ok [wholeBytes sequence frame] := by
  have hitem : ((wholeLayout sequence frame).item 0).1.asRef ++ ((wholeLayout sequence frame).item 0).2 =
      wholeBytes sequence frame := by
    rw [asRef_wholeLayout hvalid, show ((wholeLayout sequence frame).item 0).2 = frame.payload from rfl]
    simp [wholeBytes]
  rw [encode, fragments_eq hvalid hpayload, if_pos hfits]
  simp only [bind, Except.bind, pure, Except.pure, toList_wholeLayout, List.map_singleton, hitem]

/-- A datagram of several is the fragment that it was made from. -/
theorem Fragments.Several.bytes_fragmentAt {f : Fragments} (h : f.Several) {name : String}
    (hname : asBytes name = f.channel) (i : ℕ) :
    (f.item i).1.asRef ++ (f.item i).2 = (f.fragmentAt name i).bytes := by
  rw [h.asRef_item, h.item_snd, Fragment.bytes, Fragment.channelBytes, fragmentAt]
  split_ifs <;> simp [hname]

/-- **`decode` accepts exactly its grammar.**  A whole message is the short magic, its number, its name
with a NUL and its payload, and then the encoder writes that datagram and no other; a fragment is the
long magic and its fields at their widths, with a name in fragment zero alone; and all other bytes are
refused. -/
theorem accepts_its_grammar (d : Bytes) :
    (∀ sequence frame, decode d = .ok (.whole sequence frame) ↔
      ValidChannel frame.channel maxChannelLen ∧ d = u32ToBe magicShort ++ u32ToBe sequence ++
        asBytes frame.channel ++ [0] ++ frame.payload) ∧
    (∀ sequence frame, decode d = .ok (.whole sequence frame) →
      frame.payload.length ≤ maxMessageLen → ∀ shortMax, d.length - 8 ≤ shortMax →
        encode sequence frame shortMax = .ok [d]) ∧
    (∀ f, decode d = .ok (.fragment f) ↔ f.total.toNat ≤ maxMessageLen ∧
      ((f.index = 0 ∧ ∃ name, f.channel = some name ∧ ValidChannel name maxChannelLen) ∨
        f.index ≠ 0 ∧ f.channel = none) ∧
      d = u32ToBe magicLong ++ u32ToBe f.sequence ++ u32ToBe f.total ++ u32ToBe f.offset ++
        u16ToBe f.index ++ u16ToBe f.count ++
        (f.channel.elim [] fun name => asBytes name ++ [0]) ++ f.payload) ∧
    ((∃ e, decode d = .error e) ↔
      (¬ ∃ sequence frame, ValidChannel frame.channel maxChannelLen ∧ d = wholeBytes sequence frame) ∧
        ¬ ∃ f : Fragment, f.WellFormed ∧ d = f.bytes) := by
  refine ⟨fun sequence frame => decode_eq_whole_iff, fun sequence frame h hpayload shortMax hmax => ?_,
    fun f => ?_, ?_⟩
  · obtain ⟨hvalid, rfl⟩ := decode_eq_whole_iff.1 h
    rw [length_wholeBytes] at hmax
    exact encode_wholeBytes hvalid hpayload sequence (by omega)
  · rw [decode_eq_fragment_iff, Fragment.WellFormed, Fragment.bytes, Fragment.channelBytes]
    cases f.channel with
    | none => simp [and_assoc]
    | some name => simp [and_assoc]
  · constructor
    · rintro ⟨e, herror⟩
      constructor
      · rintro ⟨sequence, frame, hwhole⟩
        rw [decode_eq_whole_iff.2 hwhole] at herror
        cases herror
      · rintro ⟨f, hfragment⟩
        rw [decode_eq_fragment_iff.2 hfragment] at herror
        cases herror
    · rintro ⟨hwhole, hfragment⟩
      cases hdecode : decode d with
      | error e => exact ⟨e, rfl⟩
      | ok found =>
        cases found with
        | whole sequence frame => exact absurd ⟨sequence, frame, decode_eq_whole_iff.1 hdecode⟩ hwhole
        | fragment f => exact absurd ⟨f, decode_eq_fragment_iff.1 hdecode⟩ hfragment

end LcmBus.Udpm
