import LcmBus.Lib.Incremental
import LcmBus.Wire.Basic

/-!
# The relay framing

`tcpq` of `wire.rs`: a client subscribes and publishes, and the relay sends back the messages that
match.

* `publish`, `subscribe` and `unsubscribe` write a frame;
* `decode` reads one frame as a client, and `decodeRequest` as a relay;
* `framePlan` and `requestPlan` are the same readers as plans, which say how far they see, and
  `answer_decode` and `answer_decodeRequest` that they answer the same;
* `fits_framePlan` and `fits_requestPlan`: none waits for more than `frameMax` bytes.

The greetings of the two sides are in `Greeting`.
-/

namespace LcmBus

/-- What a decoder answers, as a parser of a stream: an item, or none that is stepped over. -/
def answer {α : Type} : Except WireError (Decoded α) → Incremental.Answer (Option α) WireError
  | .ok (.item item used) => .take (some item) used
  | .ok (.need bytes) => .need bytes
  | .ok (.skip bytes) => .take none bytes
  | .error e => .fail e

namespace Tcpq

def messageTypePublish : UInt32 := 1
def messageTypeSubscribe : UInt32 := 2
def messageTypeUnsubscribe : UInt32 := 3

/-- What a client sends a relay. -/
inductive Request
  | publish (frame : Frame)
  | subscribe (pattern : String)
  | unsubscribe (pattern : String)
  deriving DecidableEq, Repr

/-- `Writer::length_prefixed`. -/
def lengthPrefixed (bytes : Bytes) : Bytes := u32ToBe (UInt32.ofNat bytes.length) ++ bytes

def request (kind : UInt32) (pattern : String) : Bytes :=
  u32ToBe kind ++ lengthPrefixed (asBytes pattern)

/-- The relay reads `pattern` as a Java regex and matches the full name. -/
def subscribe (pattern : String) : Bytes := request messageTypeSubscribe pattern

/-- The relay removes the first record equal to `pattern`. -/
def unsubscribe (pattern : String) : Bytes := request messageTypeUnsubscribe pattern

/-- The bytes of a publish frame, for a relay to send on. -/
def publish (frame : Frame) : Except WireError Bytes := do
  checkChannel frame.channel maxChannelLen
  if frame.payload.length > maxMessageLen then
    throw (.messageTooLarge frame.payload.length)
  return u32ToBe messageTypePublish ++ lengthPrefixed (asBytes frame.channel) ++
    lengthPrefixed frame.payload

/-- The longest channel name this reads off a relay before it gives up on the stream. -/
def channelReadMax : ℕ := 1024

/-- The type of the frame, and the length of the first field. -/
def head : ℕ := 8

/-- A publish frame behind its type and the length of its channel, where `len` bytes have come.  The
two readers have the same lines for it. -/
def readBody {α : Type} (found : Frame → α) (len channelLen : ℕ) : Reader (Decoded α) := do
  -- The length of the payload is behind the name.
  let head := head + channelLen + 4
  if len < head then return .need head
  let channel ← Reader.take channelLen
  let payloadLen := (← Reader.u32).toNat
  if payloadLen > maxMessageLen then throw (.messageTooLarge payloadLen)
  let frame := head + payloadLen
  if len < frame then return .need frame
  -- A name no encoder here would write costs itself and nothing after it.
  match fromUtf8 channel with
  | none => return .skip frame
  | some channel =>
    if checkChannel channel maxChannelLen ≠ .ok () then return .skip frame
    let payload ← Reader.take payloadLen
    return .item (found { channel, payload }) frame

def readFrame (len : ℕ) : Reader (Decoded Frame) := do
  let kind ← Reader.u32
  -- A relay sends a publish frame and nothing else.
  if kind ≠ messageTypePublish then throw (.unknownFrameType kind)
  let channelLen := (← Reader.u32).toNat
  if channelLen > channelReadMax then throw (.channelTooLong channelLen)
  readBody id len channelLen

/-- Read one frame. -/
def decode (data : Bytes) : Except WireError (Decoded Frame) :=
  if data.length < head then .ok (.need head) else (readFrame data.length data).map Prod.fst

/-- A subscription behind its type and the length of its pattern. -/
def readPattern (kind : UInt32) (len patternLen : ℕ) : Reader (Decoded Request) := do
  let frame := head + patternLen
  if len < frame then return .need frame
  let pattern ← Reader.take patternLen
  match fromUtf8 pattern with
  | none => return .skip frame
  | some pattern =>
    return .item (if kind = messageTypeSubscribe then .subscribe pattern else .unsubscribe pattern)
      frame

def readRequest (len : ℕ) : Reader (Decoded Request) := do
  let kind ← Reader.u32
  if kind ≠ messageTypePublish ∧ kind ≠ messageTypeSubscribe ∧ kind ≠ messageTypeUnsubscribe then
    throw (.unknownFrameType kind)
  let firstLen := (← Reader.u32).toNat
  if firstLen > channelReadMax then throw (.channelTooLong firstLen)
  if kind ≠ messageTypePublish then readPattern kind len firstLen
  else readBody .publish len firstLen

/-- Read one request of a client, as a relay reads it. -/
def decodeRequest (data : Bytes) : Except WireError (Decoded Request) :=
  if data.length < head then .ok (.need head) else (readRequest data.length data).map Prod.fst

/-! ### The readers as plans -/

open Incremental

/-- The end of a publish frame of `len` bytes, where the bytes of it are `data`. -/
def frameEnd {α : Type} (found : Frame → α) (channelLen len : ℕ) (data : Bytes) :
    Plan UInt8 (Option α) WireError :=
  match fromUtf8 ((data.drop head).take channelLen) with
  | none => .take none len
  | some channel =>
    if checkChannel channel maxChannelLen ≠ .ok () then .take none len
    else .take (some (found
      { channel, payload := (data.drop (head + channelLen + 4)).take (len - (head + channelLen + 4)) }))
      len

/-- A publish frame, behind its type and the length of its channel. -/
def bodyPlan {α : Type} (found : Frame → α) (channelLen : ℕ) : Plan UInt8 (Option α) WireError :=
  let head := head + channelLen + 4
  .wait head fun data =>
    let payloadLen := (word data (Tcpq.head + channelLen)).toNat
    if payloadLen > maxMessageLen then .fail (.messageTooLarge payloadLen)
    else .wait (head + payloadLen) (frameEnd found channelLen (head + payloadLen))

/-- `decode`. -/
def framePlan : Plan UInt8 (Option Frame) WireError :=
  .wait head fun data =>
    let kind := word data 0
    let channelLen := (word data 4).toNat
    if kind ≠ messageTypePublish then .fail (.unknownFrameType kind)
    else if channelLen > channelReadMax then .fail (.channelTooLong channelLen)
    else bodyPlan id channelLen

/-- The end of a subscription of `len` bytes. -/
def patternEnd (kind : UInt32) (len : ℕ) (data : Bytes) : Plan UInt8 (Option Request) WireError :=
  match fromUtf8 (data.drop head) with
  | none => .take none len
  | some pattern =>
    .take (some (if kind = messageTypeSubscribe then .subscribe pattern else .unsubscribe pattern)) len

/-- `decode_request`. -/
def requestPlan : Plan UInt8 (Option Request) WireError :=
  .wait head fun data =>
    let kind := word data 0
    let firstLen := (word data 4).toNat
    if kind ≠ messageTypePublish ∧ kind ≠ messageTypeSubscribe ∧ kind ≠ messageTypeUnsubscribe then
      .fail (.unknownFrameType kind)
    else if firstLen > channelReadMax then .fail (.channelTooLong firstLen)
    else if kind ≠ messageTypePublish then .wait (head + firstLen) (patternEnd kind (head + firstLen))
    else bodyPlan .publish firstLen

theorem length_head : head = 8 := rfl

variable {α : Type}

/-- The end of a frame that has come is what the reader gives for it. -/
theorem answer_readBody (found : Frame → α) (data : Bytes) (channelLen : ℕ) :
    answer ((readBody found data.length channelLen (data.drop head)).map Prod.fst) =
      (bodyPlan found channelLen).run data := by
  rw [readBody, bodyPlan]
  by_cases hhead : data.length < head + channelLen + 4
  · simp only [if_pos hhead, Plan.run]
    rfl
  rw [Plan.run_wait_of_le (by omega), word_take (by omega)]
  simp only [if_neg hhead]
  rw [Reader.bind_of_ok (Reader.take_drop (by omega)), Reader.bind_of_ok (Reader.u32_drop (by omega))]
  by_cases hlong : (word data (head + channelLen)).toNat > maxMessageLen
  · simp only [if_pos hlong]
    rfl
  simp only [if_neg hlong]
  by_cases hframe : data.length < head + channelLen + 4 + (word data (head + channelLen)).toNat
  · simp only [if_pos hframe, Plan.run]
    rfl
  rw [Plan.run_wait_of_le (by omega), frameEnd, List.drop_take, List.take_take,
    Nat.min_eq_left (by omega)]
  simp only [if_neg hframe]
  cases hname : fromUtf8 ((data.drop head).take channelLen) with
  | none => rfl
  | some channel =>
    dsimp only
    by_cases hchannel : checkChannel channel maxChannelLen ≠ .ok ()
    · simp only [if_pos hchannel]
      rfl
    · simp only [if_neg hchannel]
      rw [Reader.bind_of_ok (Reader.take_drop (by omega)), List.drop_take, List.take_take]
      simp [answer, Plan.run]
      rfl

theorem answer_readPattern (kind : UInt32) (data : Bytes) (patternLen : ℕ) :
    answer ((readPattern kind data.length patternLen (data.drop head)).map Prod.fst) =
      (Plan.wait (head + patternLen) (patternEnd kind (head + patternLen))).run data := by
  rw [readPattern]
  by_cases hframe : data.length < head + patternLen
  · simp only [if_pos hframe, Plan.run]
    rfl
  rw [Plan.run_wait_of_le (by omega), patternEnd, List.drop_take, Nat.add_sub_cancel_left]
  simp only [if_neg hframe]
  rw [Reader.bind_of_ok (Reader.take_drop (by omega))]
  cases hpattern : fromUtf8 ((data.drop head).take patternLen) <;> rfl

/-- **The reader of a client is a plan.** -/
theorem answer_decode (data : Bytes) : answer (decode data) = framePlan.run data := by
  rw [decode, framePlan]
  by_cases hhead : data.length < head
  · simp only [if_pos hhead, Plan.run]
    rfl
  have h8 := length_head
  rw [if_neg hhead, Plan.run_wait_of_le (by omega), word_take (by omega), word_take (by omega),
    readFrame, Reader.bind_of_ok (Reader.u32_of_le (by omega))]
  by_cases hkind : word data 0 ≠ messageTypePublish
  · simp only [if_pos hkind]
    rfl
  simp only [if_neg hkind]
  rw [Reader.bind_of_ok (Reader.u32_drop (by omega))]
  by_cases hlong : (word data 4).toNat > channelReadMax
  · simp only [if_pos hlong]
    rfl
  simp only [if_neg hlong]
  exact answer_readBody id data _

/-- **The reader of a relay is a plan.** -/
theorem answer_decodeRequest (data : Bytes) : answer (decodeRequest data) = requestPlan.run data := by
  rw [decodeRequest, requestPlan]
  by_cases hhead : data.length < head
  · simp only [if_pos hhead, Plan.run]
    rfl
  have h8 := length_head
  rw [if_neg hhead, Plan.run_wait_of_le (by omega), word_take (by omega), word_take (by omega),
    readRequest, Reader.bind_of_ok (Reader.u32_of_le (by omega))]
  by_cases hkind : word data 0 ≠ messageTypePublish ∧ word data 0 ≠ messageTypeSubscribe ∧
      word data 0 ≠ messageTypeUnsubscribe
  · simp only [if_pos hkind]
    rfl
  simp only [if_neg hkind]
  rw [Reader.bind_of_ok (Reader.u32_drop (by omega))]
  by_cases hlong : (word data 4).toNat > channelReadMax
  · simp only [if_pos hlong]
    rfl
  simp only [if_neg hlong]
  by_cases hpublish : word data 0 ≠ messageTypePublish
  · simp only [if_pos hpublish]
    exact answer_readPattern _ data _
  · simp only [if_neg hpublish]
    exact answer_readBody Request.publish data _

/-! ### How far they see -/

/-- The longest frame a reader takes, and so the most it waits for. -/
def frameMax : ℕ := 4 + 4 + channelReadMax + 4 + maxMessageLen

theorem fits_frameEnd (found : Frame → α) (channelLen : ℕ) {len : ℕ} (h : 0 < len) (data : Bytes) :
    (frameEnd found channelLen len data).Fits frameMax len := by
  unfold frameEnd
  split
  · exact ⟨h, le_rfl⟩
  · split_ifs
    · exact ⟨h, le_rfl⟩
    · exact ⟨h, le_rfl⟩

theorem fits_bodyPlan (found : Frame → α) {channelLen : ℕ} (h : channelLen ≤ channelReadMax)
    {seen : ℕ} : (bodyPlan found channelLen).Fits frameMax seen := by
  have h8 := length_head
  refine ⟨?_, fun data _ => ?_⟩
  · simp only [frameMax]
    omega
  · dsimp only
    split_ifs with hlong
    · trivial
    · refine ⟨?_, fun data _ => fits_frameEnd found channelLen (by omega) data⟩
      simp only [frameMax]
      omega

/-- **A client waits for no more than the longest frame, and takes no more than has come.** -/
theorem fits_framePlan : framePlan.Fits frameMax 0 := by
  refine ⟨by decide, fun data _ => ?_⟩
  dsimp only
  split_ifs with hkind hlong
  · trivial
  · trivial
  · exact fits_bodyPlan id (by omega)

/-- **And so does a relay.** -/
theorem fits_requestPlan : requestPlan.Fits frameMax 0 := by
  refine ⟨by decide, fun data _ => ?_⟩
  dsimp only
  split_ifs with hkind hlong hpublish
  · trivial
  · trivial
  · have h8 := length_head
    refine ⟨by simp only [frameMax]; omega, fun pattern _ => ?_⟩
    unfold patternEnd
    split <;> exact ⟨by omega, le_rfl⟩
  · exact fits_bodyPlan Request.publish (by omega)

end Tcpq

end LcmBus
