import LcmBus.Lib.Run
import LcmBus.Wire.Basic

/-!
# The outbox of a connection

`Outbox` of `relay.rs`: the frames between the threads that publish and the one thread that
writes.  Everything a thread does between taking the lock and giving it back is one function on
the `Queue`; a `Condvar` only says when a thread tries again, so here one may try at any time.

* `Queue.enter`, `Queue.messageTurn`, `Queue.controlTurn`, `Queue.flushTurn`: the calls that wait,
  as the place one takes in the line and one turn of its loop;
* `Queue.take`, `Queue.done`, `Queue.shut`, `Queue.abandon`: the calls that do not;
* `State` and `step`: all the callers of one outbox, in any interleaving.

The counters are `u64` and `usize` in the source, which no run wraps.  The room a ring keeps is
left out: it is not seen by any caller.
-/

namespace LcmBus.Outbox

/-- The bytes of messages at which a publish waits. -/
def outboxBytes : ℕ := 4 * 1024 * 1024

/-- What a frame costs beside its bytes: `size_of::<Vec<u8>>()` and two `usize`. -/
def frameCost : ℕ := 24 + 2 * 8

/-- The bytes of subscription frames at which a subscribe waits. -/
def outboxControlBytes : ℕ := 1024 * 1024

/-- Which line a frame is in. -/
inductive Lane
  | message
  | control
  deriving DecidableEq, Repr

/-- Frames let into one line, and of those the ones that reached the wire and the ones thrown
away. -/
structure Sent where
  taken : ℕ
  wrote : ℕ
  lost : ℕ
  deriving DecidableEq, Repr

structure Queue where
  /-- From `publish`, in the sequence they were let in. -/
  messages : List Bytes
  /-- From `subscribe` and `unsubscribe`.  The writer takes these first. -/
  control : List Bytes
  waiting : ℕ
  controlWaiting : ℕ
  /-- The line the frame the writer holds came from. -/
  inHand : Option Lane
  /-- The publishes waiting for room, oldest first. -/
  line : List ℕ
  nextTicket : ℕ
  sent : Sent
  controlSent : Sent
  isOpen : Bool
  deriving DecidableEq, Repr

/-- Why a frame did not go in, or a flush did not finish. -/
inductive Refused
  | tooSlow
  | gone
  deriving DecidableEq, Repr

/-- What one turn of the loop of a call comes to. -/
inductive Turn
  | through
  | refused (refused : Refused)
  | waits
  deriving DecidableEq, Repr

namespace Queue

def new : Queue where
  messages := []
  control := []
  waiting := 0
  controlWaiting := 0
  inHand := none
  line := []
  nextTicket := 0
  sent := ⟨0, 0, 0⟩
  controlSent := ⟨0, 0, 0⟩
  isOpen := true

/-- `Queue::of`, to read. -/
def of (q : Queue) : Lane → Sent
  | .message => q.sent
  | .control => q.controlSent

/-- `Queue::of`, to write. -/
def setOf (q : Queue) (lane : Lane) (sent : Sent) : Queue :=
  match lane with
  | .message => { q with sent }
  | .control => { q with controlSent := sent }

/-- The frames that wait in a line. -/
def frames (q : Queue) : Lane → List Bytes
  | .message => q.messages
  | .control => q.control

/-- The ticket `put_message` takes, and the line with it. -/
def enter (q : Queue) : ℕ × Queue :=
  (q.nextTicket, { q with line := q.line ++ [q.nextTicket], nextTicket := q.nextTicket + 1 })

/-- Out of the line. -/
def leaveLine (q : Queue) (ticket : ℕ) : Queue := { q with line := q.line.filter (· ≠ ticket) }

/-- One turn of the loop of `put_message`, where `late` says its deadline went by. -/
def messageTurn (q : Queue) (ticket : ℕ) (frame : Bytes) (late : Bool) : Turn × Queue :=
  if q.isOpen = false then (.refused .gone, q.leaveLine ticket)
  else if q.waiting ≤ outboxBytes ∧ q.line.head? = some ticket then
    (.through, { q with
      line := q.line.tail
      waiting := q.waiting + (frame.length + frameCost)
      messages := q.messages ++ [frame]
      sent := { q.sent with taken := q.sent.taken + 1 } })
  else if late then (.refused .tooSlow, q.leaveLine ticket)
  else (.waits, q)

/-- One turn of the loop of `put_control`. -/
def controlTurn (q : Queue) (frame : Bytes) (late : Bool) : Turn × Queue :=
  if q.isOpen = false then (.refused .gone, q)
  else if q.controlWaiting ≤ outboxControlBytes then
    (.through, { q with
      controlWaiting := q.controlWaiting + (frame.length + frameCost)
      control := q.control ++ [frame]
      controlSent := { q.controlSent with taken := q.controlSent.taken + 1 } })
  else if late then (.refused .tooSlow, q)
  else (.waits, q)

/-- One turn of the loop of `flushed`, which waits for the counts it read at its start. -/
def flushTurn (q : Queue) (wanted wantedControl : ℕ) (late : Bool) : Turn :=
  if q.sent.wrote ≥ wanted ∧ q.controlSent.wrote ≥ wantedControl then .through
  else if q.sent.lost > 0 ∨ q.controlSent.lost > 0 ∨ q.isOpen = false then .refused .gone
  else if late then .refused .tooSlow
  else .waits

/-- `take`, without the wait: the next frame, and of the two lines control first. -/
def take (q : Queue) : Option (Lane × Bytes) × Queue :=
  match q.control, q.messages with
  | frame :: control, _ =>
    (some (.control, frame), { q with
      control, inHand := some .control
      controlWaiting := q.controlWaiting - (frame.length + frameCost) })
  | [], frame :: messages =>
    (some (.message, frame), { q with
      messages, inHand := some .message
      waiting := q.waiting - (frame.length + frameCost) })
  | [], [] => (none, q)

/-- The writer finished with the frame it took, and `went` says whether it reached the wire.  An
`abandon` that got there first took it. -/
def done (q : Queue) (went : Bool) : Queue :=
  match q.inHand with
  | none => q
  | some lane =>
    let q := { q with inHand := none }
    let sent := q.of lane
    q.setOf lane
      (if went then { sent with wrote := sent.wrote + 1 } else { sent with lost := sent.lost + 1 })

/-- The messages let in that never went. -/
def lostMessages (q : Queue) : ℕ := q.sent.lost

/-- Closes the queue, and counts the frames in the lines as lost. -/
def shut (q : Queue) : Queue :=
  { q with
    isOpen := false, messages := [], control := [], waiting := 0, controlWaiting := 0
    sent := { q.sent with lost := q.sent.lost + q.messages.length }
    controlSent := { q.controlSent with lost := q.controlSent.lost + q.control.length } }

/-- Counts the frame the writer holds as lost, where it holds one. -/
def abandon (q : Queue) : Queue :=
  match q.inHand with
  | none => q
  | some lane =>
    let q := { q with inHand := none }
    let sent := q.of lane
    q.setOf lane { sent with lost := sent.lost + 1 }

end Queue

/-! ### The callers -/

/-- A call that waits: a publish in the line, a subscription, or a flush with its counts. -/
inductive Call
  | message (ticket : ℕ) (frame : Bytes)
  | control (frame : Bytes)
  | flush (wanted wantedControl : ℕ)
  deriving DecidableEq, Repr

/-- One turn of a call. -/
def Call.turn (call : Call) (q : Queue) (late : Bool) : Turn × Queue :=
  match call with
  | .message ticket frame => q.messageTurn ticket frame late
  | .control frame => q.controlTurn frame late
  | .flush wanted wantedControl => (q.flushTurn wanted wantedControl late, q)

/-- The line a call puts its frame in. -/
def Call.lane : Call → Option Lane
  | .message .. => some .message
  | .control .. => some .control
  | .flush .. => none

/-- Where the one writer is. -/
inductive Writer
  | idle
  | holding (lane : Lane) (frame : Bytes)
  /-- A write of its tore, so it takes no more. -/
  | stopped
  /-- `WriterExit` shut the queue. -/
  | leaving
  | gone
  deriving DecidableEq, Repr

structure State where
  queue : Queue
  /-- The calls that wait, by a name of their own. -/
  calls : ℕ → Option Call
  writer : Writer
  /-- The publishes answered `Ok`. -/
  published : ℕ
  /-- The subscriptions answered `Ok`. -/
  subscribed : ℕ

def State.new : State := ⟨.new, fun _ => none, .idle, 0, 0⟩

inductive Act
  | putMessage (name : ℕ) (frame : Bytes) (late : Bool)
  | putControl (name : ℕ) (frame : Bytes) (late : Bool)
  | flush (name : ℕ) (late : Bool)
  /-- A call that waits tries again. -/
  | wake (name : ℕ) (late : Bool)
  | take
  | done (went : Bool)
  | shut
  | abandon
  /-- The writer leaves its loop, or a panic takes it out: `WriterExit` shuts the queue. -/
  | exitShut
  /-- And counts the frame in hand. -/
  | exitAbandon
  deriving DecidableEq, Repr

/-- The calls that put a frame in, or wait for those put in. -/
def Act.ofCaller : Act → Bool
  | .putMessage .. | .putControl .. | .flush .. | .wake .. => true
  | _ => false

namespace State

/-- The turn of a call, and what it is answered. -/
def turn (s : State) (name : ℕ) (call : Call) (late : Bool) : State :=
  let (turn, queue) := call.turn s.queue late
  { s with
    queue
    calls := Function.update s.calls name (if turn = .waits then some call else none)
    published := if turn = .through ∧ call.lane = some .message then s.published + 1
      else s.published
    subscribed := if turn = .through ∧ call.lane = some .control then s.subscribed + 1
      else s.subscribed }

end State

/-- One call of one thread, from the lock to giving it back. -/
def step (s : State) : Act → Option State
  | .putMessage name frame late =>
    if s.calls name = none then
      let (ticket, queue) := s.queue.enter
      some ({ s with queue }.turn name (.message ticket frame) late)
    else none
  | .putControl name frame late =>
    if s.calls name = none then some (s.turn name (.control frame) late) else none
  | .flush name late =>
    if s.calls name = none then
      some (s.turn name (.flush s.queue.sent.taken s.queue.controlSent.taken) late)
    else none
  | .wake name late => (s.calls name).map fun call => s.turn name call late
  | .take =>
    match s.writer with
    | .idle =>
      match s.queue.take with
      | (some (lane, frame), queue) => some { s with queue, writer := .holding lane frame }
      | (none, queue) => some { s with queue }
    | _ => none
  | .done went =>
    match s.writer with
    | .holding _ _ =>
      some { s with queue := s.queue.done went, writer := if went then .idle else .stopped }
    | _ => none
  | .shut => some { s with queue := s.queue.shut }
  | .abandon => some { s with queue := s.queue.abandon }
  | .exitShut =>
    match s.writer with
    | .leaving | .gone => none
    | _ => some { s with queue := s.queue.shut, writer := .leaving }
  | .exitAbandon =>
    match s.writer with
    | .leaving => some { s with queue := s.queue.abandon, writer := .gone }
    | _ => none

end LcmBus.Outbox
