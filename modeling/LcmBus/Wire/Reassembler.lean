import Std.Data.ExtTreeMap
import LcmBus.Lib.Run
import LcmBus.Wire.Udpm

/-!
# The reassembler

`udpm::Reassembler`: it keeps the fragments of messages that are not whole yet, by source and
sequence number, and gives a message back when the last fragment of it comes.

* `Partial` is one message part-way put together; `Partial.take` puts a fragment in it and
  `Partial.assemble` is the scan that ends it;
* `Reassembler` is the table of them with its age index and its budget; `remove` and `makeSpace`
  take messages out of it;
* `feed` is `Reassembler::feed`, and `feedStep` is that as a step of a run.

A `BTreeMap` is a `Std.ExtTreeMap`.  `clock` and `evicted` are `u64` in the source, which no run
wraps.  `sort_unstable_by_key` may leave pieces with one start in any sequence, so the sort is a
parameter of which nothing more is known than `UnstableSort` says.
-/

open Std (ExtTreeMap TransCmp TransOrd LawfulEqCmp LawfulEqOrd)

namespace LcmBus.Udpm

/-- The messages a `Reassembler` holds at one time. -/
def maxFragmentBuffers : ℕ := 1000

/-- The bytes a `Reassembler` holds across every message it is putting back together. -/
def maxFragmentBytes : ℕ := 2 ^ 24

/-- One fragment that came: where it belongs in the message, and where its bytes sit in the
payload gathered so far. -/
structure Piece where
  start : UInt32
  at_ : UInt32
  len : UInt32
  deriving DecidableEq, Repr

/-- What remembering one fragment costs, beyond its bytes: `size_of::<(u16, Piece)>()` and two
`usize`, where a `usize` is eight bytes. -/
def pieceCost : ℕ := 16 + 2 * 8

/-- `sort_unstable_by_key(|piece| piece.start)`. -/
structure UnstableSort where
  sort : List Piece → List Piece
  perm : ∀ pieces, (sort pieces).Perm pieces
  sorted : ∀ pieces, (sort pieces).Pairwise fun p q => p.start.toNat ≤ q.start.toNat

/-- A sort there is. -/
def UnstableSort.insertion : UnstableSort where
  sort := List.insertionSort fun p q => p.start.toNat ≤ q.start.toNat
  perm := List.perm_insertionSort _
  sorted pieces :=
    have : Std.Total fun p q : Piece => p.start.toNat ≤ q.start.toNat := ⟨fun _ _ => le_total _ _⟩
    have : IsTrans Piece fun p q => p.start.toNat ≤ q.start.toNat := ⟨fun _ _ _ => le_trans⟩
    List.pairwise_insertionSort _ pieces

/-- One message part-way put together. -/
structure Partial where
  channel : Option String
  total : UInt32
  count : UInt16
  /-- The payload bytes of the fragments that came, in the sequence they came in. -/
  arrived : Bytes
  /-- The fragments that came, by index. -/
  pieces : ExtTreeMap UInt16 Piece
  touched : ℕ

/-- Whether `feed` refuses a fragment for itself, whatever is held. -/
def Fragment.refused (fragment : Fragment) : Option WireError :=
  let inconsistent := WireError.inconsistentFragment fragment.sequence
  if fragment.total.toNat > maxMessageLen then some (.messageTooLarge fragment.total.toNat)
  else if fragment.count = 0 ∨ fragment.index ≥ fragment.count then some inconsistent
  -- A fragment holds one byte or more.
  else if fragment.count.toNat > max fragment.total.toNat 1 then some inconsistent
  else if fragment.offset.toNat + fragment.payload.length > fragment.total.toNat then
    some inconsistent
  else none

/-- What became of the payload of a fragment. -/
inductive Kept
  | stored
  | duplicate
  | tooMuch
  deriving DecidableEq

namespace Partial

/-- The entry `feed` opens for the first fragment of a message. -/
def opened (fragment : Fragment) (now : ℕ) : Partial :=
  { channel := none, total := fragment.total, count := fragment.count, arrived := [],
    pieces := ∅, touched := now }

/-- A sequence number with a different shape is a different message. -/
def disagrees (p : Partial) (fragment : Fragment) : Prop :=
  p.total ≠ fragment.total ∨ p.count ≠ fragment.count

instance (p : Partial) (fragment : Fragment) : Decidable (p.disagrees fragment) :=
  inferInstanceAs (Decidable (_ ∨ _))

/-- The part of `feed` that writes to an entry. -/
def take (entry : Partial) (fragment : Fragment) : Kept × Partial :=
  -- A duplicate of fragment zero must no more rewrite the name than it adds to the count.
  let entry := { entry with channel := entry.channel.or fragment.channel }
  if fragment.index ∈ entry.pieces then (.duplicate, entry)
  else if entry.arrived.length + fragment.payload.length > entry.total.toNat then (.tooMuch, entry)
  else
    let piece : Piece :=
      { start := fragment.offset, at_ := UInt32.ofNat entry.arrived.length,
        len := UInt32.ofNat fragment.payload.length }
    (.stored, { entry with
      pieces := entry.pieces.insert fragment.index piece
      arrived := entry.arrived ++ fragment.payload })

/-- The scan of the sorted pieces: each one has to begin where the bytes before it end. -/
def layOut (arrived : Bytes) : List Piece → Bytes → Option Bytes
  | [], payload => some payload
  | piece :: pieces, payload =>
    if piece.start.toNat ≠ payload.length then none
    else
      let at_ := piece.at_.toNat
      layOut arrived pieces
        (payload ++ (arrived.take (at_ + piece.len.toNat)).drop at_)

/-- The message, once an index of each fragment is here.  `none` is an inconsistent fragment. -/
def assemble (sort : UnstableSort) (p : Partial) : Option Frame :=
  -- A count of indexes is not a count of bytes.
  if p.arrived.length ≠ p.total.toNat then none
  else match layOut p.arrived (sort.sort (p.pieces.toList.map Prod.snd)) [] with
    | none => none
    | some payload =>
      if payload.length ≠ p.total.toNat then none
      else match p.channel with
        | none => none
        | some channel => some { channel, payload }

end Partial

/-! ### The table -/

/-- The key of a message is its source and its sequence number. -/
abbrev Key (K : Type) := K × UInt32

variable {K : Type} [Ord K]

/-- The order of the keys of the table. -/
def keyCmp : Key K → Key K → Ordering := compareLex (compareOn Prod.fst) (compareOn Prod.snd)

structure Reassembler (K : Type) [Ord K] where
  partials : ExtTreeMap (Key K) Partial keyCmp
  /-- The keys by `touched`. -/
  byAge : ExtTreeMap ℕ (Key K)
  held : ℕ
  clock : ℕ
  evicted : ℕ

variable [TransOrd K]

instance : TransCmp (keyCmp (K := K)) :=
  inferInstanceAs (TransCmp (compareLex (compareOn Prod.fst) (compareOn Prod.snd)))

instance [LawfulEqOrd K] : LawfulEqCmp (keyCmp (K := K)) where
  eq_of_compare {a b} h := by
    have h : (compare a.1 b.1).then (compare a.2 b.2) = .eq := h
    rw [Ordering.then_eq_eq] at h
    exact Prod.ext (Std.LawfulEqOrd.eq_of_compare h.1) (Std.LawfulEqOrd.eq_of_compare h.2)

namespace Reassembler

def new : Reassembler K := ⟨∅, ∅, 0, 0, 0⟩

/-- How many messages are part-way put together. -/
def inFlight (s : Reassembler K) : ℕ := s.partials.size

def remove (s : Reassembler K) (key : Key K) : Option Partial × Reassembler K :=
  match s.partials[key]? with
  | none => (none, s)
  | some p => (some p, { s with
      partials := s.partials.erase key
      byAge := s.byAge.erase p.touched
      held := s.held - (p.arrived.length + p.pieces.size * pieceCost) })

/-- The clock and the age index, where a fragment of `key` comes. -/
def touch (s : Reassembler K) (key : Key K) : Reassembler K :=
  let now := s.clock + 1
  let byAge := match s.partials[key]? with
    | some entry => s.byAge.erase entry.touched
    | none => s.byAge
  { s with clock := now, byAge := byAge.insert now key }

/-- The test of the loop of `make_space`. -/
def overLimits (s : Reassembler K) (incoming : ℕ) : Prop :=
  s.partials.size ≥ maxFragmentBuffers ∨
    s.held + incoming > maxFragmentBytes ∧ s.partials.isEmpty = false

instance (s : Reassembler K) (incoming : ℕ) : Decidable (s.overLimits incoming) :=
  inferInstanceAs (Decidable (_ ∨ _ ∧ _))

variable [DecidableEq K]

/-- The message that waited longest for a fragment, and is not `keep`. -/
def oldest (s : Reassembler K) (keep : Key K) : Option (Key K) :=
  (s.byAge.toList.map Prod.snd).find? (· ≠ keep)

def evict (s : Reassembler K) (key : Key K) : Reassembler K :=
  let s := (s.remove key).2
  { s with evicted := s.evicted + 1 }

/-- The loop of `make_space`, for `fuel` turns. -/
def makeSpaceLoop (keep : Key K) (incoming : ℕ) : ℕ → Reassembler K → Reassembler K
  | 0, s => s
  | fuel + 1, s =>
    if s.overLimits incoming then
      match s.oldest keep with
      | none => s
      | some oldest => makeSpaceLoop keep incoming fuel (s.evict oldest)
    else s

/-- LCM drops the message that waited longest for a fragment, and never the one being fed.  Each
turn takes an entry out of the age index, so the loop ends in as many turns as that has. -/
def makeSpace (s : Reassembler K) (keep : Key K) (incoming : ℕ) : Reassembler K :=
  makeSpaceLoop keep incoming (s.byAge.size + 1) s

/-- `feed` from the clock to the write into the entry of `key`: what became of the payload, the
entry, and the table with it. -/
def gather (s : Reassembler K) (key : Key K) (fragment : Fragment) :
    Kept × Partial × Reassembler K :=
  let s := (s.touch key).makeSpace key fragment.payload.length
  let entry := (s.partials[key]?).getD (Partial.opened fragment s.clock)
  let (kept, entry) := { entry with touched := s.clock }.take fragment
  (kept, entry, { s with
    partials := s.partials.insert key entry
    held := if kept = .stored then s.held + (fragment.payload.length + pieceCost) else s.held })

/-- `Reassembler::feed`.  This gives the message when the fragment completes it. -/
def feed (sort : UnstableSort) (s : Reassembler K) (source : K) (fragment : Fragment) :
    Except WireError (Option Frame) × Reassembler K :=
  let key := (source, fragment.sequence)
  let inconsistent := WireError.inconsistentFragment fragment.sequence
  match fragment.refused with
  | some e => (.error e, s)
  | none =>
    -- LCM removes the fragments it has.
    if ∃ p ∈ s.partials[key]?, p.disagrees fragment then (.error inconsistent, (s.remove key).2)
    else
      let (kept, entry, s) := s.gather key fragment
      if kept = .tooMuch then (.error inconsistent, s)
      else if entry.pieces.size < entry.count.toNat then (.ok none, s)
      else match s.remove key with
        -- `expect("just matched")`: `gather` put the entry there.
        | (none, s) => (.ok none, s)
        | (some p, s) =>
          match p.assemble sort with
          | none => (.error inconsistent, s)
          | some frame => (.ok (some frame), s)

/-- One input of a run of feeds: a fragment, and the source it came from. -/
abbrev Fed (K : Type) := K × Fragment

/-- The key a fragment is fed under. -/
def Fed.key {K : Type} (fed : Fed K) : Key K := (fed.1, fed.2.sequence)

/-- `feed` as the step of an answering machine. -/
def feedStep (sort : UnstableSort) (s : Reassembler K) (fed : Fed K) :
    Except WireError (Option Frame) × Reassembler K := s.feed sort fed.1 fed.2

end Reassembler

/-- A fragment of one byte, of a message of two of them on channel `A`. -/
def Fragment.ofTwo (sequence : UInt32) (index : UInt16) (byte : UInt8) : Fragment :=
  { sequence, total := 2, offset := UInt32.ofNat index.toNat, index, count := 2,
    channel := if index = 0 then some "A" else none, payload := [byte] }

example : Machine.answers (Reassembler.feedStep .insertion) (Reassembler.new : Reassembler ℕ)
    [(0, .ofTwo 7 1 2), (0, .ofTwo 7 1 9), (0, .ofTwo 7 0 1)] =
      [.ok none, .ok none, .ok (some ⟨"A", [1, 2]⟩)] := by decide +kernel

end LcmBus.Udpm
