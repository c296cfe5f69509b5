import LcmBus.Lib.BigEndian

/-!
# LCM framing: messages, errors and the byte reader

The part of `wire.rs` that the three wire formats share.

* `Frame`, `WireError`, `Decoded`, the limits on a name and on a message;
* `checkChannel`, the one rule for a channel name, with a limit that differs;
* fixed-width integers as big-endian bytes (`u16ToBe`, `u32ToBe`, `i64ToBe` and their inverses);
* `Reader`, the cursor the decoders read with, and what each of its reads gives on bytes that
  begin with what it looks for; `bind_eq_ok`, `fixed_eq_ok` and `channel_eq_ok` say what was there
  where it gave something.

A `&str` is a `String`: Lean keeps one as a byte array that is valid UTF-8, as Rust does, so
`asBytes` is `str::as_bytes` and `fromUtf8` is `str::from_utf8`.  A `usize` is a natural number:
every sum here is far below `2 ^ 64`.  `Frame` stands for `FrameRef` as well, which is the same
two fields borrowed.
-/

namespace LcmBus

/-- The bytes of a buffer. -/
abbrev Bytes := List UInt8

/-- `str::as_bytes`. -/
def asBytes (s : String) : Bytes := s.toByteArray.data.toList

/-- `str::from_utf8`. -/
def fromUtf8 (l : Bytes) : Option String := String.fromUTF8? ⟨l.toArray⟩

theorem fromUtf8_asBytes (s : String) : fromUtf8 (asBytes s) = some s := by
  have hvalid : (ByteArray.mk (asBytes s).toArray).IsValidUTF8 := s.isValidUTF8
  rw [fromUtf8, String.fromUTF8?, dif_pos hvalid]
  rfl

theorem asBytes_of_fromUtf8 {l : Bytes} {s : String} (h : fromUtf8 l = some s) : asBytes s = l := by
  rw [fromUtf8, String.fromUTF8?] at h
  split at h
  · cases h
    simp [asBytes, String.fromUTF8]
  · cases h

theorem asBytes_ofList (l : List Char) :
    asBytes (String.ofList l) = l.flatMap String.utf8EncodeChar := by
  simp [asBytes, List.utf8Encode]

/-- A message: the channel it is on, and the bytes on it. -/
structure Frame where
  channel : String
  payload : Bytes
  deriving DecidableEq, Repr

/-- The LCM limit on a channel name. -/
def maxChannelLen : ℕ := 63

/-- The longest name of a channel in a log. -/
def channelMax : ℕ := 999

/-- The LCM limit on a message. -/
def maxMessageLen : ℕ := 2 ^ 28

/-- Why a read or a write of a frame failed. -/
inductive WireError
  | truncated (needed remaining : ℕ)
  | badMagic (magic : UInt32)
  | badChannel
  | channelTooLong (len : ℕ)
  | messageTooLarge (len : ℕ)
  | datagramTooSmall (shortMax minimum : ℕ)
  | tooManyFragments (count : ℕ)
  | inconsistentFragment (sequence : UInt32)
  | unknownFrameType (kind : UInt32)
  deriving DecidableEq, Repr

/-- What one read of a stream found: an item and the bytes it used, the length the stream must
have before a second read can say anything else, or a whole frame to step over. -/
inductive Decoded (α : Type)
  | item (item : α) (used : ℕ)
  | need (bytes : ℕ)
  | skip (bytes : ℕ)
  deriving DecidableEq, Repr

/-- One rule holds for all channel names.  `max` differs: a log holds a longer name than a
datagram. -/
def checkChannel (channel : String) (max : ℕ) : Except WireError Unit :=
  let bytes := asBytes channel
  if bytes = [] ∨ 0 ∈ bytes then .error .badChannel
  else if bytes.length > max then .error (.channelTooLong bytes.length)
  else .ok ()

/-- What `checkChannel` lets through: a name that is not empty, has no NUL and keeps to the
limit. -/
def ValidChannel (channel : String) (max : ℕ) : Prop :=
  asBytes channel ≠ [] ∧ 0 ∉ asBytes channel ∧ (asBytes channel).length ≤ max

instance (channel : String) (max : ℕ) : Decidable (ValidChannel channel max) :=
  inferInstanceAs (Decidable (_ ∧ _ ∧ _))

theorem checkChannel_ok_iff {channel : String} {max : ℕ} :
    checkChannel channel max = .ok () ↔ ValidChannel channel max := by
  unfold checkChannel ValidChannel
  dsimp only
  split_ifs with hbad hlong
  · simp only [false_iff]
    exact fun h => hbad.elim h.1 h.2.1
  · simp only [false_iff]
    exact fun h => absurd h.2.2 (by omega)
  · simp only [true_iff]
    exact ⟨fun h => hbad (.inl h), fun h => hbad (.inr h), by omega⟩

theorem checkChannel_of_valid {channel : String} {max : ℕ} (h : ValidChannel channel max) :
    checkChannel channel max = .ok () := checkChannel_ok_iff.2 h

theorem ValidChannel.length_pos {channel : String} {max : ℕ} (h : ValidChannel channel max) :
    0 < (asBytes channel).length := List.length_pos_iff.2 h.1

/-! ### Fixed-width integers -/

/-- `u16::to_be_bytes`. -/
def u16ToBe (v : UInt16) : Bytes := BigEndian.encode 2 v.toNat

/-- `u16::from_be_bytes`. -/
def u16FromBe (l : Bytes) : UInt16 := UInt16.ofNat (BigEndian.decode l)

/-- `u32::to_be_bytes`. -/
def u32ToBe (v : UInt32) : Bytes := BigEndian.encode 4 v.toNat

/-- `u32::from_be_bytes`. -/
def u32FromBe (l : Bytes) : UInt32 := UInt32.ofNat (BigEndian.decode l)

/-- `i64::to_be_bytes`. -/
def i64ToBe (v : Int64) : Bytes := BigEndian.encode 8 v.toUInt64.toNat

/-- `i64::from_be_bytes`. -/
def i64FromBe (l : Bytes) : Int64 := (UInt64.ofNat (BigEndian.decode l)).toInt64

@[simp] theorem length_u16ToBe (v : UInt16) : (u16ToBe v).length = 2 := BigEndian.length_encode _ _
@[simp] theorem length_u32ToBe (v : UInt32) : (u32ToBe v).length = 4 := BigEndian.length_encode _ _
@[simp] theorem length_i64ToBe (v : Int64) : (i64ToBe v).length = 8 := BigEndian.length_encode _ _

@[simp] theorem u16FromBe_toBe (v : UInt16) : u16FromBe (u16ToBe v) = v := by
  rw [u16FromBe, u16ToBe, BigEndian.decode_encode_of_lt v.toNat_lt, UInt16.ofNat_toNat]

@[simp] theorem u32FromBe_toBe (v : UInt32) : u32FromBe (u32ToBe v) = v := by
  rw [u32FromBe, u32ToBe, BigEndian.decode_encode_of_lt v.toNat_lt, UInt32.ofNat_toNat]

@[simp] theorem i64FromBe_toBe (v : Int64) : i64FromBe (i64ToBe v) = v := by
  rw [i64FromBe, i64ToBe, BigEndian.decode_encode_of_lt v.toUInt64.toNat_lt, UInt64.ofNat_toNat]
  rfl

theorem u32ToBe_fromBe {l : Bytes} (h : l.length = 4) : u32ToBe (u32FromBe l) = l := by
  have hlt : BigEndian.decode l < 2 ^ 32 := by simpa [h] using BigEndian.decode_lt l
  rw [u32ToBe, u32FromBe, UInt32.toNat_ofNat_of_lt' hlt, BigEndian.encode_decode_of_length h]

theorem u16ToBe_fromBe {l : Bytes} (h : l.length = 2) : u16ToBe (u16FromBe l) = l := by
  have hlt : BigEndian.decode l < 2 ^ 16 := by simpa [h] using BigEndian.decode_lt l
  rw [u16ToBe, u16FromBe, UInt16.toNat_ofNat_of_lt' hlt, BigEndian.encode_decode_of_length h]

theorem i64ToBe_fromBe {l : Bytes} (h : l.length = 8) : i64ToBe (i64FromBe l) = l := by
  have hlt : BigEndian.decode l < 2 ^ 64 := by simpa [h] using BigEndian.decode_lt l
  rw [i64ToBe, i64FromBe, UInt64.toUInt64_toInt64, UInt64.toNat_ofNat_of_lt' hlt,
    BigEndian.encode_decode_of_length h]

/-! ### The reader -/

/-- The cursor of a decoder: what it has not read of its data. -/
abbrev Reader := StateT Bytes (Except WireError)

namespace Reader

/-- The next `n` bytes. -/
def take (n : ℕ) : Reader Bytes := fun rest =>
  if rest.length < n then .error (.truncated n rest.length) else .ok (rest.take n, rest.drop n)

def u16 : Reader UInt16 := do return u16FromBe (← take 2)

def u32 : Reader UInt32 := do return u32FromBe (← take 4)

def i64 : Reader Int64 := do return i64FromBe (← take 8)

/-- A channel name with its NUL behind it. -/
def channel : Reader String := fun rest =>
  match rest.findIdx? (· == 0) with
  | none => .error .badChannel
  | some stop =>
    -- C delivers an empty name, and a message this crate cannot publish is not one it gives back.
    if stop = 0 then .error .badChannel
    else if stop > maxChannelLen then .error (.channelTooLong stop)
    else match fromUtf8 (rest.take stop) with
      | none => .error .badChannel
      | some name => .ok (name, rest.drop (stop + 1))

/-- All that is left. -/
def rest : Reader Bytes := fun rest => .ok (rest, [])

/-- A read that succeeds hands its value on. -/
theorem bind_of_ok {α β : Type} {m : Reader α} {f : α → Reader β} {l l' : Bytes} {a : α}
    (h : m l = .ok (a, l')) : (m >>= f) l = f a l' := by
  show (StateT.bind m f) l = f a l'
  simp only [StateT.bind, h]
  rfl

/-- One that fails ends the read. -/
theorem bind_of_error {α β : Type} {m : Reader α} {f : α → Reader β} {l : Bytes} {e : WireError}
    (h : m l = .error e) : (m >>= f) l = .error e := by
  show (StateT.bind m f) l = .error e
  simp only [StateT.bind, h]
  rfl

theorem take_append {n : ℕ} {l : Bytes} (l' : Bytes) (h : l.length = n) :
    take n (l ++ l') = .ok (l, l') := by
  subst h
  simp [take]

theorem u16_append (v : UInt16) (l' : Bytes) : u16 (u16ToBe v ++ l') = .ok (v, l') := by
  rw [u16, bind_of_ok (take_append l' (length_u16ToBe v)), u16FromBe_toBe]
  rfl

theorem u32_append (v : UInt32) (l' : Bytes) : u32 (u32ToBe v ++ l') = .ok (v, l') := by
  rw [u32, bind_of_ok (take_append l' (length_u32ToBe v)), u32FromBe_toBe]
  rfl

theorem i64_append (v : Int64) (l' : Bytes) : i64 (i64ToBe v ++ l') = .ok (v, l') := by
  rw [i64, bind_of_ok (take_append l' (length_i64ToBe v)), i64FromBe_toBe]
  rfl

/-- The name an encoder wrote, with its NUL, is the name read. -/
theorem channel_append {name : String} (h : ValidChannel name maxChannelLen) (l' : Bytes) :
    channel (asBytes name ++ 0 :: l') = .ok (name, l') := by
  have hfind : (asBytes name ++ 0 :: l').findIdx? (· == 0) = some (asBytes name).length := by
    have hnone : (asBytes name).findIdx? (· == 0) = none :=
      List.findIdx?_eq_none_iff.2 fun b hb => by
        simp only [beq_eq_false_iff_ne, ne_eq]
        rintro rfl
        exact h.2.1 hb
    simp [List.findIdx?_append, hnone, List.findIdx?_cons]
  have hpos := h.length_pos
  have hmax := h.2.2
  simp only [channel, hfind]
  rw [if_neg (by omega), if_neg (by omega), List.take_left, fromUtf8_asBytes]
  simp

/-! ### What a read says of the bytes -/

variable {α β : Type} {l l' : Bytes}

theorem bind_eq_ok {m : Reader α} {f : α → Reader β} {b : β} :
    (m >>= f) l = .ok (b, l') ↔ ∃ a rest, m l = .ok (a, rest) ∧ f a rest = .ok (b, l') := by
  cases hm : m l with
  | error e =>
    rw [bind_of_error hm]
    simp
  | ok found =>
    rw [bind_of_ok (hm : m l = .ok (found.1, found.2))]
    constructor
    · exact fun h => ⟨found.1, found.2, rfl, h⟩
    · rintro ⟨a, rest, ⟨⟩, h⟩
      exact h

theorem pure_eq_ok {a b : α} : (pure a : Reader α) l = .ok (b, l') ↔ b = a ∧ l' = l := by
  constructor
  · rintro ⟨⟩
    exact ⟨rfl, rfl⟩
  · rintro ⟨rfl, rfl⟩
    rfl

theorem take_eq_ok {n : ℕ} {taken : Bytes} :
    take n l = .ok (taken, l') ↔ taken.length = n ∧ l = taken ++ l' := by
  constructor
  · intro h
    unfold take at h
    split_ifs at h
    cases h
    exact ⟨List.length_take_of_le (by omega), (List.take_append_drop _ _).symm⟩
  · rintro ⟨hlength, rfl⟩
    exact take_append l' hlength

/-- A value of `n` bytes is read where the bytes begin with what is written for it. -/
theorem fixed_eq_ok {n : ℕ} {fromBe : Bytes → α} {toBe : α → Bytes}
    (hlength : ∀ v, (toBe v).length = n) (hfrom : ∀ v, fromBe (toBe v) = v)
    (hto : ∀ {l : Bytes}, l.length = n → toBe (fromBe l) = l) {v : α} :
    (do return fromBe (← take n) : Reader α) l = .ok (v, l') ↔ l = toBe v ++ l' := by
  rw [bind_eq_ok]
  constructor
  · rintro ⟨taken, rest, htake, hpure⟩
    obtain ⟨htaken, rfl⟩ := take_eq_ok.1 htake
    obtain ⟨rfl, rfl⟩ := pure_eq_ok.1 hpure
    rw [hto htaken]
  · rintro rfl
    exact ⟨toBe v, l', take_append l' (hlength v), pure_eq_ok.2 ⟨(hfrom v).symm, rfl⟩⟩

theorem u16_eq_ok {v : UInt16} : u16 l = .ok (v, l') ↔ l = u16ToBe v ++ l' :=
  fixed_eq_ok length_u16ToBe u16FromBe_toBe u16ToBe_fromBe

theorem u32_eq_ok {v : UInt32} : u32 l = .ok (v, l') ↔ l = u32ToBe v ++ l' :=
  fixed_eq_ok length_u32ToBe u32FromBe_toBe u32ToBe_fromBe

/-- A name is read where the bytes begin with it and its NUL. -/
theorem channel_eq_ok {name : String} :
    channel l = .ok (name, l') ↔
      ValidChannel name maxChannelLen ∧ l = asBytes name ++ 0 :: l' := by
  constructor
  · intro h
    unfold channel at h
    split at h
    · cases h
    rename_i stop hstop
    obtain ⟨hlt, hzero, hbefore⟩ := List.findIdx?_eq_some_iff_getElem.1 hstop
    split_ifs at h with hempty hlong
    split at h
    · cases h
    rename_i found hfound
    cases h
    have hname := asBytes_of_fromUtf8 hfound
    have hlength : (l.take stop).length = stop := List.length_take_of_le hlt.le
    have hdrop : l.drop stop = 0 :: l.drop (stop + 1) := by
      rw [List.drop_eq_getElem_cons hlt, show l[stop] = 0 by simpa using hzero]
    refine ⟨⟨?_, ?_, ?_⟩, ?_⟩
    · rw [hname]
      intro hnil
      rw [hnil] at hlength
      exact hempty hlength.symm
    · rw [hname]
      intro hmem
      obtain ⟨i, hi, heq⟩ := List.mem_take_iff_getElem.1 hmem
      exact absurd (hbefore i (by omega)) (by simp [heq])
    · rw [hname, hlength]
      omega
    · rw [hname, ← hdrop, List.take_append_drop]
  · rintro ⟨hvalid, rfl⟩
    exact channel_append hvalid l'

end Reader

/-! ### Reads of bytes that are there -/

/-- Four bytes of a frame, as a number. -/
def word (data : Bytes) (at_ : ℕ) : UInt32 := u32FromBe ((data.drop at_).take 4)

/-- Eight of them. -/
def long (data : Bytes) (at_ : ℕ) : Int64 := i64FromBe ((data.drop at_).take 8)

theorem word_take {data : Bytes} {at_ n : ℕ} (h : at_ + 4 ≤ n) :
    word (data.take n) at_ = word data at_ := by
  rw [word, word, List.drop_take, List.take_take, Nat.min_eq_left (by omega)]

theorem long_take {data : Bytes} {at_ n : ℕ} (h : at_ + 8 ≤ n) :
    long (data.take n) at_ = long data at_ := by
  rw [long, long, List.drop_take, List.take_take, Nat.min_eq_left (by omega)]

namespace Reader

theorem take_of_le {n : ℕ} {l : Bytes} (h : n ≤ l.length) :
    take n l = .ok (l.take n, l.drop n) := if_neg (by omega)

theorem u32_of_le {l : Bytes} (h : 4 ≤ l.length) : u32 l = .ok (word l 0, l.drop 4) := by
  rw [u32, bind_of_ok (take_of_le h)]
  rfl

/-- The number at the front of what is left of the data. -/
theorem u32_drop {data : Bytes} {n : ℕ} (h : n + 4 ≤ data.length) :
    u32 (data.drop n) = .ok (word data n, data.drop (n + 4)) := by
  rw [u32_of_le (by rw [List.length_drop]; omega), List.drop_drop, word, List.drop_zero, word]

theorem i64_drop {data : Bytes} {n : ℕ} (h : n + 8 ≤ data.length) :
    i64 (data.drop n) = .ok (long data n, data.drop (n + 8)) := by
  rw [i64, bind_of_ok (take_of_le (by rw [List.length_drop]; omega)), List.drop_drop]
  rfl

theorem take_drop {data : Bytes} {n len : ℕ} (h : n + len ≤ data.length) :
    take len (data.drop n) = .ok ((data.drop n).take len, data.drop (n + len)) := by
  rw [take_of_le (by rw [List.length_drop]; omega), List.drop_drop]

end Reader

end LcmBus
