import LcmBus.Bus.ReadBuffer
import LcmBus.Bus.Subscriptions
import LcmBus.Lib.Loop
import LcmBus.Wire.Tcpq

/-!
# The readers of a relay's stream

`tcpq_reader` of `relay.rs`, which reads what a relay sends, and `peer_reader` of `serve.rs`, which
reads what a client sends.

* `readTurn`: one turn of either of the two loops the readers have, for any decoder;
* `tcpqReader` and `peerReader`: what each of the two does with a frame.

`running` is set throughout.  A relay sends no time, so what a handler hears is the frame.
-/

namespace LcmBus

/-- Why a reader stopped. -/
inductive Stop
  | endOfLog
  | tornLog
  | closed
  | io (e : IoError)
  | wire (e : WireError)
  deriving DecidableEq, Repr

structure Counters where
  received : ℕ
  delivered : ℕ
  discarded : ℕ
  deriving DecidableEq, Repr

def Counters.zero : Counters := ⟨0, 0, 0⟩

/-- A reader between two turns, with what came of the frames so far. -/
structure Reading (σ : Type) where
  pending : ReadBuffer
  source : Source
  /-- At the head of the outer loop, where it reads. -/
  filling : Bool
  heard : σ

variable {α σ : Type}

/-- One turn of the loops of a reader: a read, or one frame of what has come. -/
def readTurn (decode : Bytes → Except WireError (Decoded α)) (atEnd : Stop) (take : σ → α → σ)
    (skip : σ → σ) (s : Reading σ) : Reading σ × Option Stop :=
  if s.filling then
    match s.pending.fillFrom s.source with
    | (.ok 0, pending, source) => ({ s with pending, source }, some atEnd)
    | (.ok _, pending, source) => ({ s with pending, source, filling := false }, none)
    | (.error e, pending, source) =>
      ({ s with pending, source }, if isTimeout e then none else some (.io e))
  else
    match decode s.pending.unread with
    | .ok (.item item used) =>
      ({ s with pending := s.pending.consume used, heard := take s.heard item }, none)
    | .ok (.need bytes) =>
      match s.pending.reserve bytes with
      | none => (s, some (.wire (.messageTooLarge bytes)))
      | some pending => ({ s with pending, filling := true }, none)
    | .ok (.skip bytes) =>
      ({ s with pending := s.pending.consume bytes, heard := skip s.heard }, none)
    | .error e => (s, some (.wire e))

/-- A reader at its start. -/
def Reading.start (floor ceiling : ℕ) (source : Source) (heard : σ) : Reading σ :=
  ⟨.withLimits floor ceiling, source, true, heard⟩

/-! ### The client -/

namespace Relay

/-- The largest frame a client holds. -/
def tcpqFrameMax : ℕ := 4 + 4 + Tcpq.channelReadMax + 4 + maxMessageLen

/-- What the handler of a client heard, and the counters. -/
structure Heard where
  counters : Counters
  delivered : List Frame
  deriving DecidableEq, Repr

variable {Regex : Type} (engine : Engine Regex) (subscriptions : Subscriptions Regex)

/-- A frame is counted, and the handler hears it where a subscription selects it. -/
def onFrame (heard : Heard) (frame : Frame) : Heard :=
  let counters := { heard.counters with received := heard.counters.received + 1 }
  if subscriptions.selects engine frame.channel then
    ⟨{ counters with delivered := counters.delivered + 1 }, heard.delivered ++ [frame]⟩
  else ⟨{ counters with discarded := counters.discarded + 1 }, heard.delivered⟩

def onSkip (heard : Heard) : Heard :=
  { heard with counters := { heard.counters with
      received := heard.counters.received + 1, discarded := heard.counters.discarded + 1 } }

/-- One turn of `tcpq_reader`.  Where the writer tore the connection, the end of the stream is its
error. -/
def tcpqReader (torn : Option IoError) : Reading Heard → Reading Heard × Option Stop :=
  readTurn Tcpq.decode (torn.elim .closed .io) (onFrame engine subscriptions) onSkip

def tcpqStart (source : Source) : Reading Heard :=
  .start (16 * 1024) tcpqFrameMax source ⟨.zero, []⟩

end Relay

/-! ### The relay -/

namespace Serve

/-- The largest frame a relay holds. -/
def frameMax : ℕ := 4 + 4 + Tcpq.channelReadMax + 4 + maxMessageLen

/-- What came of the requests of a peer: those acted on, its subscriptions, and the frames handed to
`dispatch`, with the bytes that go to each peer. -/
structure Acted (Regex : Type) where
  requests : List Tcpq.Request
  subscriptions : Subscriptions Regex
  dispatched : List (Frame × Bytes)

variable {Regex : Type} (engine : Engine Regex)

/-- A request is acted on.  A pattern the engine refuses costs the pattern. -/
def onRequest (acted : Acted Regex) (request : Tcpq.Request) : Acted Regex :=
  match request with
  | .subscribe pattern =>
    { acted with
      requests := acted.requests ++ [request]
      subscriptions := match acted.subscriptions.add engine pattern with
        | .ok subscriptions => subscriptions
        | .error _ => acted.subscriptions }
  | .unsubscribe pattern =>
    { acted with
      requests := acted.requests ++ [request]
      subscriptions := (acted.subscriptions.remove pattern).2 }
  | .publish frame =>
    match Tcpq.publish frame with
    | .error _ => acted
    | .ok encoded =>
      { acted with
        requests := acted.requests ++ [request]
        dispatched := acted.dispatched ++ [(frame, encoded)] }

/-- One turn of `peer_reader`. -/
def peerReader : Reading (Acted Regex) → Reading (Acted Regex) × Option Stop :=
  readTurn Tcpq.decodeRequest .closed (onRequest engine) id

def peerStart (source : Source) : Reading (Acted Regex) :=
  .start (16 * 1024) frameMax source ⟨[], .new, []⟩

end Serve

end LcmBus
