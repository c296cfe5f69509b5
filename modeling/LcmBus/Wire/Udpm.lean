import LcmBus.Wire.Basic

/-!
# The UDP multicast wire format

`udpm` of `wire.rs` without its reassembler: a short message in one datagram, or a larger one in
fragments.

* `decode` reads one datagram;
* `fragments` lays a message out, `Fragments.next` gives its datagrams one by one, and `encode`
  gives all of them whole.
-/

namespace LcmBus.Udpm

/-- `"LC02"`: a full message in one datagram. -/
def magicShort : UInt32 := 0x4c433032

/-- `"LC03"`: one fragment of a larger message. -/
def magicLong : UInt32 := 0x4c433033

def headerShort : ℕ := 8
def headerLong : ℕ := 20

/-- A fragment header is longer than a short one, so a fragment holds less. -/
def headerGap : ℕ := headerLong - headerShort

/-- LCM keeps a fragment and a short message to one datagram length. -/
def fragmentMax (shortMax : ℕ) : ℕ :=
  if shortMax > headerGap then shortMax - headerGap else 1

/-- One fragment of a message.  Only fragment zero has a channel. -/
structure Fragment where
  sequence : UInt32
  /-- The payload length of the full message. -/
  total : UInt32
  /-- The position of this fragment in that message. -/
  offset : UInt32
  index : UInt16
  count : UInt16
  channel : Option String
  payload : Bytes
  deriving DecidableEq, Repr

/-- What one datagram holds: a whole message, or one fragment of one. -/
inductive Datagram
  | whole (sequence : UInt32) (frame : Frame)
  | fragment (fragment : Fragment)
  deriving DecidableEq, Repr

def readDatagram : Reader Datagram := do
  let magic ← Reader.u32
  if magic = magicShort then
    let sequence ← Reader.u32
    let channel ← Reader.channel
    let payload ← Reader.rest
    return .whole sequence { channel, payload }
  else if magic = magicLong then
    let sequence ← Reader.u32
    let total ← Reader.u32
    let offset ← Reader.u32
    let index ← Reader.u16
    let count ← Reader.u16
    if total.toNat > maxMessageLen then
      throw (.messageTooLarge total.toNat)
    let channel ← if index = 0 then some <$> Reader.channel else pure none
    let payload ← Reader.rest
    return .fragment { sequence, total, offset, index, count, channel, payload }
  else throw (.badMagic magic)

/-- Read the datagram at the start of `data`. -/
def decode (data : Bytes) : Except WireError Datagram := (readDatagram data).map Prod.fst

/-! ### The head of a datagram -/

/-- The most a datagram puts before the payload. -/
def headMax : ℕ := headerLong + maxChannelLen + 1

/-- What goes before the payload of one datagram: an array of `headMax` bytes, and how many of
them are filled. -/
structure Head where
  bytes : Bytes
  len : UInt8
  deriving DecidableEq, Repr

namespace Head

def empty : Head := ⟨List.replicate headMax 0, 0⟩

/-- The closure `put` of `Fragments::next`. -/
def put (head : Head) (bytes : Bytes) : Head where
  bytes := head.bytes.take head.len.toNat ++ bytes ++
    head.bytes.drop (head.len.toNat + bytes.length)
  len := head.len + UInt8.ofNat bytes.length

def asRef (head : Head) : Bytes := head.bytes.take head.len.toNat

/-- The bytes put in so far are `l`, in an array that keeps its length. -/
def Holds (head : Head) (l : Bytes) : Prop :=
  head.bytes.length = headMax ∧ head.len.toNat = l.length ∧ head.asRef = l

theorem holds_empty : Holds empty [] := ⟨by simp [empty], rfl, by simp [asRef, empty]⟩

theorem Holds.put {head : Head} {l : Bytes} (h : Holds head l) (bytes : Bytes)
    (hfit : l.length + bytes.length ≤ headMax) : Holds (head.put bytes) (l ++ bytes) := by
  obtain ⟨hsize, hlen, href⟩ := h
  have hmax : headMax = 84 := rfl
  have hlen' : (head.put bytes).len.toNat = (l ++ bytes).length := by
    have hb : (UInt8.ofNat bytes.length).toNat = bytes.length :=
      UInt8.toNat_ofNat_of_lt' (by show bytes.length < 256; omega)
    rw [Head.put, UInt8.toNat_add, hb, hlen, List.length_append, Nat.mod_eq_of_lt (by omega)]
  refine ⟨?_, hlen', ?_⟩
  · simp only [Head.put, List.length_append, List.length_take, List.length_drop]
    omega
  · have href' : head.bytes.take head.len.toNat = l := href
    rw [asRef, hlen', Head.put, href', List.take_left]

end Head

/-! ### The layout of a message -/

/-- The datagrams of one message, as a head and a slice of the payload. -/
structure Fragments where
  sequence : UInt32
  channel : Bytes
  payload : Bytes
  /-- The payload bytes of fragment zero, which shares with the channel. -/
  first : ℕ
  /-- The payload bytes of each fragment after it. -/
  limit : ℕ
  count : ℕ
  index : ℕ
  deriving DecidableEq, Repr

namespace Fragments

def start (f : Fragments) (index : ℕ) : ℕ :=
  match index with
  | 0 => 0
  | _ => f.first + (index - 1) * f.limit

/-- The head and the body `next` gives at `index`. -/
def item (f : Fragments) (index : ℕ) : Head × Bytes :=
  if f.count = 1 then
    ((((Head.empty.put (u32ToBe magicShort)).put (u32ToBe f.sequence)).put f.channel).put [0],
      f.payload)
  else
    let head := Head.empty.put (u32ToBe magicLong)
    let head := head.put (u32ToBe f.sequence)
    let head := head.put (u32ToBe (UInt32.ofNat f.payload.length))
    let head := head.put (u32ToBe (UInt32.ofNat (f.start index)))
    let head := head.put (u16ToBe (UInt16.ofNat index))
    let head := head.put (u16ToBe (UInt16.ofNat f.count))
    let head := if index = 0 then (head.put f.channel).put [0] else head
    let stop := min (f.start (index + 1)) f.payload.length
    (head, (f.payload.take stop).drop (f.start index))

/-- `Iterator::next`. -/
def next (f : Fragments) : Option ((Head × Bytes) × Fragments) :=
  if f.index ≥ f.count then none
  else some (f.item f.index, { f with index := f.index + 1 })

/-- What the iterator gives before its first `None`, in `fuel` calls. -/
def collect : ℕ → Fragments → List (Head × Bytes)
  | 0, _ => []
  | fuel + 1, f =>
    match f.next with
    | none => []
    | some (datagram, f) => datagram :: collect fuel f

/-- The datagrams left.  The last of the calls gives `None`. -/
def toList (f : Fragments) : List (Head × Bytes) := collect (f.count - f.index + 1) f

end Fragments

/-- `usize::checked_sub`. -/
def checkedSub (a b : ℕ) : Option ℕ := if b ≤ a then some (a - b) else none

/-- `usize::div_ceil`. -/
def divCeil (a b : ℕ) : ℕ := (a + b - 1) / b

/-- The datagrams of one message, without a copy of the payload. -/
def fragments (sequence : UInt32) (frame : Frame) (shortMax : ℕ) : Except WireError Fragments := do
  checkChannel frame.channel maxChannelLen
  let channel := asBytes frame.channel
  if frame.payload.length > maxMessageLen then
    throw (.messageTooLarge frame.payload.length)
  let head := channel.length + 1
  let whole : Fragments :=
    { sequence, channel, payload := frame.payload, first := 0, limit := 0, count := 1, index := 0 }
  if head + frame.payload.length ≤ shortMax then
    return whole
  -- The channel name takes part of fragment zero and leaves `first`.
  let limit := fragmentMax shortMax
  match (checkedSub limit head).filter (0 < ·) with
  | none => throw (.datagramTooSmall shortMax (head + 1 + headerGap))
  | some first =>
    let count := divCeil (head + frame.payload.length) limit
    if count > 65535 then
      throw (.tooManyFragments count)
    return { whole with first, limit, count }

/-- The datagrams of one message, each one whole. -/
def encode (sequence : UInt32) (frame : Frame) (shortMax : ℕ) : Except WireError (List Bytes) := do
  let f ← fragments sequence frame shortMax
  return f.toList.map fun (head, body) => head.asRef ++ body

end LcmBus.Udpm
