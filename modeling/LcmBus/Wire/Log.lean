import LcmBus.Wire.Basic

/-!
# The log format

`log` of `wire.rs`: a log is one event behind another, each a sync word, a number, a time and a
message.

* `encode` writes an event, `decode` reads one with a look at what is behind it, and `peek` reads
  its head alone;
* `resync` finds the next sync word, and `SyncAt` says where one is;
* `head`: what the head of an event says, which `decode` and `peek` read in the same way, each with lines
  of its own (`decode_of_head`, `peek_eq`);
* `Behind`: what `decode` looks for behind an event.
-/

namespace LcmBus.Log

/-- The LCM sync word at the start of each event. -/
def magic : UInt32 := 0xeda1da01

/-- The sync word, the event number, the timestamp, and the two lengths. -/
def headerLen : ℕ := 28

/-- One event of a log: a message, and when it came. -/
structure Event where
  number : Int64
  timestamp : Int64
  frame : Frame
  deriving DecidableEq, Repr

/-- The bytes of one event, to write to a log. -/
def encode (event : Event) : Except WireError Bytes := do
  checkChannel event.frame.channel channelMax
  let channel := asBytes event.frame.channel
  let payload := event.frame.payload
  if payload.length > maxMessageLen then
    throw (.messageTooLarge payload.length)
  return u32ToBe magic ++ i64ToBe event.number ++ i64ToBe event.timestamp ++
    u32ToBe (UInt32.ofNat channel.length) ++ u32ToBe (UInt32.ofNat payload.length) ++
    channel ++ payload

/-- What is in front of the name and the payload of an event. -/
structure Head where
  number : Int64
  timestamp : Int64
  channelLen : ℕ
  payloadLen : ℕ
  deriving DecidableEq, Repr

/-- The length of the whole event. -/
def Head.len (h : Head) : ℕ := headerLen + h.channelLen + h.payloadLen

/-- The lines of `decode` for the head. -/
def readHead : Reader Head := do
  let found ← Reader.u32
  if found ≠ magic then throw (.badMagic found)
  let number ← Reader.i64
  let timestamp ← Reader.i64
  let channelLen := (← Reader.u32).toNat
  let payloadLen := (← Reader.u32).toNat
  if channelLen = 0 then throw .badChannel
  if channelLen > channelMax then throw (.channelTooLong channelLen)
  if payloadLen > maxMessageLen then throw (.messageTooLarge payloadLen)
  return { number, timestamp, channelLen, payloadLen }

def readEvent (data : Bytes) : Reader (Decoded Event) := do
  let head ← readHead
  let event := head.len
  if data.length < event then return .need event
  -- A sync word, or the end of the data, is behind an event.
  let behind := data.drop event
  if behind.length ≥ 4 ∧ behind.take 4 ≠ u32ToBe magic then
    throw (.badMagic (u32FromBe (behind.take 4)))
  let channel ← Reader.take head.channelLen
  match fromUtf8 channel with
  | none => return .skip event
  | some channel =>
    if checkChannel channel channelMax ≠ .ok () then return .skip event
    let payload ← Reader.take head.payloadLen
    return .item { head with frame := { channel, payload } } event

/-- Read the event at the start of `data`. -/
def decode (data : Bytes) : Except WireError (Decoded Event) :=
  if data.length < headerLen then .ok (.need headerLen) else (readEvent data data).map Prod.fst

/-- What the head of an event says of its time, and of its length. -/
structure Peek where
  timestamp : Int64
  len : ℕ
  deriving DecidableEq, Repr

/-- The lines of `peek`, which keep no number and add the lengths up. -/
def readPeek : Reader Peek := do
  let found ← Reader.u32
  if found ≠ magic then throw (.badMagic found)
  let _number ← Reader.i64
  let timestamp ← Reader.i64
  let channelLen := (← Reader.u32).toNat
  let payloadLen := (← Reader.u32).toNat
  if channelLen = 0 then throw .badChannel
  if channelLen > channelMax then throw (.channelTooLong channelLen)
  if payloadLen > maxMessageLen then throw (.messageTooLarge payloadLen)
  return { timestamp, len := headerLen + channelLen + payloadLen }

/-- Read the head of the event at the start of `data`. -/
def peek (data : Bytes) : Except WireError (Option Peek) :=
  if data.length < headerLen then .ok none
  else (readPeek data).map fun read => some read.1

/-- The first place a sync word is at. -/
def resync : Bytes → Option ℕ
  | [] => none
  | b :: data =>
    if (b :: data).take 4 = u32ToBe magic then some 0 else (resync data).map (· + 1)

/-! ### Where a sync word is -/

/-- The sync word is at the place `i` of `data`. -/
def SyncAt (data : Bytes) (i : ℕ) : Prop := (data.drop i).take 4 = u32ToBe magic

instance (data : Bytes) (i : ℕ) : Decidable (SyncAt data i) := inferInstanceAs (Decidable (_ = _))

theorem SyncAt.add_le {data : Bytes} {i : ℕ} (h : SyncAt data i) : i + 4 ≤ data.length := by
  have hlen := congrArg List.length h
  rw [List.length_take, List.length_drop, length_u32ToBe] at hlen
  omega

theorem syncAt_drop {data : Bytes} {n i : ℕ} : SyncAt (data.drop n) i ↔ SyncAt data (n + i) := by
  rw [SyncAt, SyncAt, List.drop_drop]

/-- A sync word that is all there is not changed by what is behind it. -/
theorem syncAt_append {data more : Bytes} {i : ℕ} (h : i + 4 ≤ data.length) :
    SyncAt (data ++ more) i ↔ SyncAt data i := by
  rw [SyncAt, SyncAt, List.drop_append_of_le_length (by omega),
    List.take_append_of_le_length (by rw [List.length_drop]; omega)]

theorem syncAt_of_resync {data : Bytes} {i : ℕ} (h : resync data = some i) : SyncAt data i := by
  induction data generalizing i with
  | nil => cases h
  | cons b data ih =>
    rw [resync] at h
    split_ifs at h with hsync
    · cases h
      exact hsync
    · obtain ⟨k, hk, rfl⟩ := Option.map_eq_some_iff.1 h
      exact ih hk

/-- `resync` finds a sync word, where there is one, and none in front of what it finds. -/
theorem resync_of_syncAt {data : Bytes} {i : ℕ} (h : SyncAt data i) :
    ∃ k ≤ i, resync data = some k := by
  induction data generalizing i with
  | nil => exact absurd h.add_le (by simp)
  | cons b data ih =>
    rw [resync]
    split_ifs with hsync
    · exact ⟨0, Nat.zero_le _, rfl⟩
    · cases i with
      | zero => exact absurd h hsync
      | succ i =>
        obtain ⟨k, hk, hfound⟩ := ih h
        exact ⟨k + 1, by omega, by rw [hfound]; rfl⟩

/-! ### What a head says -/

/-- The head at the front of `data`, where that is there. -/
def head (data : Bytes) : Except WireError Head :=
  let channelLen := (word data 20).toNat
  let payloadLen := (word data 24).toNat
  if word data 0 ≠ magic then .error (.badMagic (word data 0))
  else if channelLen = 0 then .error .badChannel
  else if channelLen > channelMax then .error (.channelTooLong channelLen)
  else if payloadLen > maxMessageLen then .error (.messageTooLarge payloadLen)
  else .ok ⟨long data 4, long data 12, channelLen, payloadLen⟩

theorem length_header : headerLen = 28 := rfl

theorem readHead_eq {data : Bytes} (h : headerLen ≤ data.length) :
    readHead data = (head data).map fun found => (found, data.drop headerLen) := by
  have h28 := length_header
  rw [readHead, head, Reader.bind_of_ok (Reader.u32_of_le (by omega))]
  by_cases hmagic : word data 0 ≠ magic
  · simp only [if_pos hmagic]
    rfl
  simp only [if_neg hmagic]
  rw [Reader.bind_of_ok (Reader.i64_drop (by omega)), Reader.bind_of_ok (Reader.i64_drop (by omega)),
    Reader.bind_of_ok (Reader.u32_drop (by omega)), Reader.bind_of_ok (Reader.u32_drop (by omega))]
  split_ifs <;> rfl

/-- The head is in the first bytes. -/
theorem head_append {l : Bytes} (h : headerLen ≤ l.length) (r : Bytes) : head (l ++ r) = head l := by
  have h28 := length_header
  have htake : (l ++ r).take headerLen = l.take headerLen := List.take_append_of_le_length h
  have hword : ∀ at_, at_ + 4 ≤ headerLen → word (l ++ r) at_ = word l at_ := fun at_ hat => by
    rw [← word_take hat, htake, word_take hat]
  have hlong : ∀ at_, at_ + 8 ≤ headerLen → long (l ++ r) at_ = long l at_ := fun at_ hat => by
    rw [← long_take hat, htake, long_take hat]
  rw [head, head, hword 0 (by omega), hword 20 (by omega), hword 24 (by omega), hlong 4 (by omega),
    hlong 12 (by omega)]

/-- An event is longer than its head, and no longer than the longest. -/
theorem len_of_head {data : Bytes} {found : Head} (h : head data = .ok found) :
    headerLen < found.len ∧ found.len ≤ headerLen + channelMax + maxMessageLen := by
  unfold head at h
  dsimp only at h
  split_ifs at h with h1 h2 h3 h4
  cases h
  simp only [Head.len]
  omega

/-- A head has a sync word at its front. -/
theorem syncAt_of_head {data : Bytes} (hlong : headerLen ≤ data.length) {found : Head}
    (h : head data = .ok found) : SyncAt data 0 := by
  have h28 := length_header
  have hmagic : word data 0 = magic := by
    unfold head at h
    dsimp only at h
    by_contra hne
    rw [if_pos hne] at h
    cases h
  rw [SyncAt, ← hmagic, word, u32ToBe_fromBe (by simp; omega)]

/-- **The lines of `peek` are those of `decode`**, as far as they go. -/
theorem peek_eq {data : Bytes} (h : headerLen ≤ data.length) :
    peek data = (head data).map fun found =>
      some { timestamp := found.timestamp, len := found.len } := by
  have h28 := length_header
  rw [peek, if_neg (by omega), readPeek, head, Reader.bind_of_ok (Reader.u32_of_le (by omega))]
  by_cases hmagic : word data 0 ≠ magic
  · simp only [if_pos hmagic]
    rfl
  simp only [if_neg hmagic]
  rw [Reader.bind_of_ok (Reader.i64_drop (by omega)), Reader.bind_of_ok (Reader.i64_drop (by omega)),
    Reader.bind_of_ok (Reader.u32_drop (by omega)), Reader.bind_of_ok (Reader.u32_drop (by omega))]
  split_ifs <;> rfl

/-! ### What is read of an event -/

/-- A sync word is `len` bytes into `data`, or less than one of any bytes. -/
def Behind (data : Bytes) (len : ℕ) : Prop :=
  4 ≤ (data.drop len).length → (data.drop len).take 4 = u32ToBe magic

instance (data : Bytes) (len : ℕ) : Decidable (Behind data len) :=
  inferInstanceAs (Decidable (_ → _))

/-- What comes of an event that is whole: a name that is no name costs it. -/
def Head.event (found : Head) (data : Bytes) : Option Event :=
  match fromUtf8 ((data.drop headerLen).take found.channelLen) with
  | none => none
  | some channel =>
    if checkChannel channel channelMax ≠ .ok () then none
    else some { found with
      frame := ⟨channel, (data.drop (headerLen + found.channelLen)).take found.payloadLen⟩ }

/-- The event, or the bytes of one to step over. -/
def Head.decoded (found : Head) (data : Bytes) : Decoded Event :=
  match found.event data with
  | none => .skip found.len
  | some event => .item event found.len

theorem decode_short {data : Bytes} (h : data.length < headerLen) :
    decode data = .ok (.need headerLen) := if_pos h

theorem decode_of_error {data : Bytes} (h : headerLen ≤ data.length) {e : WireError}
    (hhead : head data = .error e) : decode data = .error e := by
  have hread := readHead_eq h
  rw [hhead] at hread
  rw [decode, if_neg (by omega), readEvent, Reader.bind_of_error hread]
  rfl

/-- **What `decode` makes of an event whose head reads.** -/
theorem decode_of_head {data : Bytes} (h : headerLen ≤ data.length) {found : Head}
    (hhead : head data = .ok found) :
    decode data = if data.length < found.len then .ok (.need found.len)
      else if Behind data found.len then .ok (found.decoded data)
      else .error (.badMagic (word data found.len)) := by
  have hread := readHead_eq h
  rw [hhead] at hread
  rw [decode, if_neg (by omega), readEvent, Reader.bind_of_ok hread]
  dsimp only
  by_cases hlen : data.length < found.len
  · rw [if_pos hlen, if_pos hlen]
    rfl
  rw [if_neg hlen, if_neg hlen]
  by_cases hbehind : Behind data found.len
  · have hlies : ¬ ((data.drop found.len).length ≥ 4 ∧ (data.drop found.len).take 4 ≠ u32ToBe magic) :=
      fun hlies => hlies.2 (hbehind hlies.1)
    rw [Head.len] at hlen
    rw [if_pos hbehind, if_neg hlies, Reader.bind_of_ok (Reader.take_drop (by omega)), Head.decoded,
      Head.event]
    cases hname : fromUtf8 ((data.drop headerLen).take found.channelLen) with
    | none => rfl
    | some channel =>
      dsimp only
      by_cases hchannel : checkChannel channel channelMax ≠ .ok ()
      · rw [if_pos hchannel, if_pos hchannel]
        rfl
      · rw [if_neg hchannel, if_neg hchannel, Reader.bind_of_ok (Reader.take_drop (by omega))]
        rfl
  · have hlies : (data.drop found.len).length ≥ 4 ∧ (data.drop found.len).take 4 ≠ u32ToBe magic :=
      Classical.not_imp.1 hbehind
    rw [if_neg hbehind, if_pos hlies]
    rfl

end LcmBus.Log
