import LcmBus.Client.OutboxOrder
import LcmBus.Client.Serve
import LcmBus.Client.StreamReader

/-!
# The fan-out of a served relay

`Served::dispatch`, which puts a message in the outbox of each peer that wants it, and the two that
call it: `peer_reader`, for the messages of a peer, and `publish_from_local`, for those of the threads
of the process.

* `Publisher` and `Place`: who publishes, and where it is in `dispatch`;
* `State` and `step`: one step of any publisher, or of any other thread of the relay;
* `published` and `admitted`: what a publisher published, and what of it was let into the outbox of a
  peer.

A request is consumed as it is read, and not behind its dispatch: no other thread sees the buffer of a
reader.  The handler of the relay itself is left out.
-/

namespace LcmBus.Dispatch

open Outbox

variable {Regex : Type}

/-! ### Who publishes -/

inductive Publisher
  /-- The reader thread of a connection. -/
  | peer (id : ℕ)
  /-- A thread of the process that serves the relay. -/
  | thread (name : ℕ)
  deriving DecidableEq, Repr

/-- One publish: which one of its publisher, the message, and the bytes that go to each peer. -/
structure Job where
  number : ℕ
  frame : Frame
  encoded : Bytes
  deriving DecidableEq, Repr

/-- Where a publisher is in `dispatch`, with the peers it has not come to yet. -/
inductive Place
  | idle
  /-- About to lock the list of peers. -/
  | dispatches (job : Job)
  /-- At the head of the loop. -/
  | visits (job : Job) (rest : List ℕ)
  /-- About to call `put_message`. -/
  | puts (job : Job) (id : ℕ) (rest : List ℕ)
  /-- In the loop of it, under the name the call has at that outbox. -/
  | waits (job : Job) (id : ℕ) (rest : List ℕ) (call : ℕ)
  deriving DecidableEq, Repr

def Place.job : Place → Option Job
  | .idle => none
  | .dispatches job | .visits job _ | .puts job _ _ | .waits job _ _ _ => some job

structure State (Regex : Type) where
  relay : Serve.State
  /-- The rules of each peer. -/
  subscriptions : ℕ → Subscriptions Regex
  /-- What has come from each peer, and was not read. -/
  incoming : ℕ → Bytes
  places : Publisher → Place
  /-- The publishes of each. -/
  begun : Publisher → ℕ

def start : State Regex := ⟨.new, fun _ => .new, fun _ => [], fun _ => .idle, fun _ => 0⟩

/-- The outbox of a peer. -/
def outboxOf (relay : Serve.State) (id : ℕ) : Outbox.State :=
  ((relay.known id).map fun p => p.link.outbox).getD .new

namespace State

def goes (s : State Regex) (p : Publisher) (place : Place) : State Regex :=
  { s with places := Function.update s.places p place }

/-- A publish begins. -/
def begins (s : State Regex) (p : Publisher) (frame : Frame) (encoded : Bytes) : State Regex :=
  { s with begun := Function.update s.begun p (s.begun p + 1) }.goes p
    (.dispatches ⟨s.begun p, frame, encoded⟩)

def consume (s : State Regex) (id used : ℕ) : State Regex :=
  { s with incoming := Function.update s.incoming id ((s.incoming id).drop used) }

/-- The reader of a peer is in its loop. -/
def reading (s : State Regex) (id : ℕ) : Bool :=
  (s.relay.known id).any fun p => p.reader = .reading

/-- One request that `peer_reader` read. -/
def request (engine : Engine Regex) (s : State Regex) (id : ℕ) : Tcpq.Request → State Regex
  | .publish frame =>
    match Tcpq.publish frame with
    | .error _ => s
    | .ok encoded => s.begins (.peer id) frame encoded
  | other => { s with
      subscriptions := Function.update s.subscriptions id
        (Serve.onRequest engine ⟨[], s.subscriptions id, []⟩ other).subscriptions }

/-- Behind a turn of `put_message`: the call waits, or what came of it is no matter here. -/
def turned (s : State Regex) (p : Publisher) (job : Job) (id : ℕ) (rest : List ℕ) (call : ℕ) :
    State Regex :=
  s.goes p (if ((outboxOf s.relay id).calls call).isNone then .visits job rest
    else .waits job id rest call)

/-- The other threads of the relay: none of them puts a message in an outbox, and a reader that is in
`dispatch` does not end, unless the handler behind the loop panics. -/
def allows (s : State Regex) : Serve.Act → Bool
  | .peer _ (.call _) => false
  | .readerEnds id => s.places (.peer id) = .idle
  | .readerPanics id =>
    match s.places (.peer id) with
    | .visits _ [] => true
    | _ => false
  | _ => true

end State

inductive Act
  /-- A read of the socket of a peer. -/
  | arrive (id : ℕ) (bytes : Bytes)
  | request (id : ℕ)
  | publish (name : ℕ) (frame : Frame)
  /-- The clone of the list. -/
  | snapshot (p : Publisher)
  | visit (p : Publisher)
  | put (p : Publisher) (call : ℕ) (late : Bool)
  | wake (p : Publisher) (late : Bool)
  | relay (act : Serve.Act)
  deriving DecidableEq, Repr

/-- The publisher a step is one of. -/
def Act.publisher : Act → Option Publisher
  | .request id => some (.peer id)
  | .publish name _ => some (.thread name)
  | .snapshot p | .visit p | .put p _ _ | .wake p _ => some p
  | .arrive _ _ | .relay _ => none

/-- One step of one thread. -/
def step (engine : Engine Regex) (s : State Regex) : Act → Option (State Regex)
  | .arrive id bytes =>
    if s.reading id then
      some { s with incoming := Function.update s.incoming id (s.incoming id ++ bytes) }
    else none
  | .request id =>
    if s.reading id ∧ s.places (.peer id) = .idle then
      match Tcpq.decodeRequest (s.incoming id) with
      | .ok (.item request used) => some ((s.consume id used).request engine id request)
      | .ok (.skip used) => some (s.consume id used)
      | .ok (.need _) | .error _ => none
    else none
  | .publish name frame =>
    match s.places (.thread name), Tcpq.publish frame with
    | .idle, .ok encoded => some (s.begins (.thread name) frame encoded)
    | .idle, .error _ => some s
    | _, _ => none
  | .snapshot p =>
    match s.places p with
    | .dispatches job => some (s.goes p (.visits job s.relay.peers))
    | _ => none
  | .visit p =>
    match s.places p with
    | .visits job (id :: rest) =>
      some (s.goes p (if (s.subscriptions id).selects engine job.frame.channel then .puts job id rest
        else .visits job rest))
    | .visits _ [] => some (s.goes p .idle)
    | _ => none
  | .put p call late =>
    match s.places p with
    | .puts job id rest =>
      (Serve.step s.relay (.peer id (.call (.putMessage call job.encoded late)))).map fun relay =>
        { s with relay }.turned p job id rest call
    | _ => none
  | .wake p late =>
    match s.places p with
    | .waits job id rest call =>
      (Serve.step s.relay (.peer id (.call (.wake call late)))).map fun relay =>
        { s with relay }.turned p job id rest call
    | _ => none
  | .relay act =>
    if s.allows act then (Serve.step s.relay act).map fun relay => { s with relay } else none

/-! ### What is published, and what is let in -/

/-- The publish a step begins. -/
def publishes (p : Publisher) (s : State Regex) (act : Act) (t : State Regex) : List Job :=
  if act.publisher = some p ∧ s.places p = .idle then (t.places p).job.toList else []

/-- The publishes of a publisher, in their order. -/
def published (p : Publisher) (past : List (State Regex × Act × State Regex)) : List Job :=
  past.flatMap fun (s, act, t) => publishes p s act t

/-- What a step of a publisher lets into the messages of a peer, with the publish it is of. -/
def admits (p : Publisher) (id : ℕ) (s : State Regex) (act : Act) (t : State Regex) :
    List (Job × Bytes) :=
  if act.publisher = some p then (s.places p).job.toList.flatMap fun job =>
    (entered .message (outboxOf s.relay id) (outboxOf t.relay id)).map fun frame => (job, frame)
  else []

/-- All that a publisher let into the messages of a peer. -/
def admitted (p : Publisher) (id : ℕ) (past : List (State Regex × Act × State Regex)) :
    List (Job × Bytes) :=
  past.flatMap fun (s, act, t) => admits p id s act t

variable (p : Publisher) (id : ℕ) (past : List (State Regex × Act × State Regex)) (s t : State Regex)
  (act : Act)

@[simp] theorem published_concat : published p (past ++ [(s, act, t)]) =
    published p past ++ publishes p s act t := by
  simp [published]

@[simp] theorem admitted_concat : admitted p id (past ++ [(s, act, t)]) =
    admitted p id past ++ admits p id s act t := by
  simp [admitted]

end LcmBus.Dispatch
