import LcmBus.Client.Dial
import LcmBus.Client.DispatchOrder
import LcmBus.Client.RelayRules
import LcmBus.Client.RulesTexts

/-!
# Clients around a relay

A relay that is served, and at the other end of each of its connections a client that dialled it.

* `Client` and `Client.step`: the threads of a client around its outbox: those that publish, those
  that change its subscriptions, its writer, and those that end it;
* `State` and `step`: one step of any thread at either end, or a read that moves bytes between them;
* `bus`, `offered` and `through`: of a past, what the relay went through, the frames a client let into
  its messages, and those the relay let into the messages for it;
* `bus_step` and `client_cases`: what a step of the system is for the relay, and for one client.

The greetings, which come before a client has an outbox, are those of `Opening`, and `writable` is tested
by no publish here: one that came past its tests may be at the outbox behind a `close`.
-/

namespace LcmBus.Relayed

open Outbox Relay

variable {Regex : Type}

/-! ### The clients -/

structure Client (Regex : Type) where
  /-- The subscriptions that `open_tcpq` wrote before there was a writer. -/
  opening : List String
  dial : Dial.State
  receives : Bool
  writable : Bool
  subscriptions : Subscriptions Regex
  changing : Option ℕ
  ops : ℕ → Option (Rules.Phase Regex)
  reader : Reading Heard
  /-- What `tcpq_reader` gave back. -/
  ended : Option Stop
  /-- The bytes it sent that the relay has read. -/
  up : ℕ
  /-- The bytes of the relay that it has read. -/
  down : ℕ

/-- What a thread of a client does. -/
inductive Move
  /-- `publish`, as far as its turn in `put_message`. -/
  | publish (name : ℕ) (frame : Frame) (late : Bool)
  /-- A `flush`, or another turn of a call that waits. -/
  | call (act : Outbox.Act)
  | rules (act : Rules.Act)
  /-- A step of the writer, `close`, or the end of the reader. -/
  | dial (act : Dial.Act)
  /-- `close` and `ReaderExit` clear `writable` too. -/
  | unwritable
  deriving DecidableEq, Repr

namespace Client

/-- A client that was opened. -/
def new (receives : Bool) (opening : Subscriptions Regex) : Client Regex where
  opening := opening.forARelay
  dial := .new
  receives := receives
  writable := true
  subscriptions := opening
  changing := none
  ops _ := none
  reader := tcpqStart ⟨[], []⟩
  ended := none
  up := 0
  down := 0

/-- The operations on the subscriptions, and what they see. -/
def rules (c : Client Regex) : Rules.State Regex :=
  ⟨c.receives, c.writable && c.dial.link.writable, c.subscriptions, c.changing, c.dial.link.outbox,
    c.ops⟩

/-- What they come to. -/
def withRules (c : Client Regex) (r : Rules.State Regex) : Client Regex :=
  { c with
    dial := { c.dial with link := { c.dial.link with outbox := r.outbox } }
    subscriptions := r.subscriptions, changing := r.changing, ops := r.ops }

/-- All that the client has sent. -/
def sent (c : Client Regex) : Bytes := c.opening.flatMap Tcpq.subscribe ++ c.dial.link.wire

/-- A step of the connection. -/
def dials (c : Client Regex) (act : Dial.Act) : Option (Client Regex) :=
  (Dial.step c.dial act).map fun dial => { c with dial }

def step (engine : Engine Regex) (c : Client Regex) : Move → Option (Client Regex)
  | .publish name frame late =>
    match Tcpq.publish frame with
    | .error _ => some c
    | .ok bytes => c.dials (.link (.call (.putMessage name bytes late)))
  | .call act =>
    match act with
    | .flush .. | .wake .. =>
      if Rules.others c.dial.link.outbox act then c.dials (.link (.call act)) else none
    | _ => none
  | .rules act =>
    match act with
    | .outbox _ | .unwritable => none
    | act => (Rules.step engine c.rules act).map c.withRules
  | .dial act =>
    match act with
    | .link (.call _) => none
    | act => c.dials act
  | .unwritable => some { c with writable := false }

/-- One turn of the reader, where `wire` is what the relay has sent.  A read that finds nothing there,
and does not wait, is the end of the stream. -/
def reads (engine : Engine Regex) (c : Client Regex) (wire : Bytes) (cut : Cut)
    (torn : Option IoError) : Client Regex :=
  let rest := wire.drop c.down
  let (reader, ended) :=
    tcpqReader engine c.subscriptions torn { c.reader with source := ⟨rest, [cut]⟩ }
  { c with reader, ended, down := c.down + (rest.length - reader.source.rest.length) }

end Client

/-! ### The system -/

structure State (Regex : Type) where
  bus : Dispatch.State Regex
  clients : ℕ → Client Regex

/-- A relay, and those that are to dial it, each with the number that its connection is to have. -/
def start (receives : ℕ → Bool) (opening : ℕ → Subscriptions Regex) : State Regex :=
  ⟨Dispatch.start, fun id => .new (receives id) (opening id)⟩

/-- The relay's end of a connection. -/
def linkOf (relay : Serve.State) (id : ℕ) : Link := ((relay.known id).map Serve.Peer.link).getD .new

inductive Act
  /-- A step of any thread of the relay, but for the reads of its sockets. -/
  | bus (act : Dispatch.Act)
  /-- `peer_reader` reads the next bytes of a client. -/
  | up (id count : ℕ)
  | client (id : ℕ) (move : Move)
  /-- A turn of the reader of a client. -/
  | read (id : ℕ) (cut : Cut) (torn : Option IoError)
  deriving DecidableEq, Repr

namespace State

/-- The next bytes of a client. -/
def coming (s : State Regex) (id count : ℕ) : Bytes :=
  ((s.clients id).sent.drop (s.clients id).up).take count

def setClient (s : State Regex) (id : ℕ) (c : Client Regex) : State Regex :=
  { s with clients := Function.update s.clients id c }

/-- What the relay has sent to a client. -/
def wire (s : State Regex) (id : ℕ) : Bytes := (linkOf s.bus.relay id).wire

end State

/-- One step of one thread, at either end. -/
def step (engine : Engine Regex) (s : State Regex) : Act → Option (State Regex)
  | .bus (.arrive _ _) => none
  | .bus act => (Dispatch.step engine s.bus act).map fun bus => { s with bus }
  | .up id count =>
    (Dispatch.step engine s.bus (.arrive id (s.coming id count))).map fun bus =>
      { s with bus }.setClient id { s.clients id with
        up := (s.clients id).up + (s.coming id count).length }
  | .client id move => ((s.clients id).step engine move).map (s.setClient id)
  | .read id cut torn =>
    if (s.clients id).receives ∧ (s.clients id).ended = none then
      some (s.setClient id ((s.clients id).reads engine (s.wire id) cut torn))
    else none

/-! ### What a past holds -/

/-- What the system went through. -/
abbrev Past (Regex : Type) := List (State Regex × Act × State Regex)

/-- The step of the relay in a step of the system. -/
def busStep (s : State Regex) (act : Act) (t : State Regex) :
    List (Dispatch.State Regex × Dispatch.Act × Dispatch.State Regex) :=
  match act with
  | .bus act => [(s.bus, act, t.bus)]
  | .up id count => [(s.bus, .arrive id (s.coming id count), t.bus)]
  | .client _ _ | .read _ _ _ => []

/-- What the relay went through. -/
def bus (past : Past Regex) : List (Dispatch.State Regex × Dispatch.Act × Dispatch.State Regex) :=
  past.flatMap fun (s, act, t) => busStep s act t

/-- The frames a client let into its messages, in their order. -/
def offered (id : ℕ) (past : Past Regex) : List Bytes :=
  past.flatMap fun (s, _, t) =>
    entered .message (s.clients id).dial.link.outbox (t.clients id).dial.link.outbox

/-- The control frames that it let in, in theirs. -/
def controls (id : ℕ) (past : Past Regex) : List Bytes :=
  past.flatMap fun (s, _, t) =>
    entered .control (s.clients id).dial.link.outbox (t.clients id).dial.link.outbox

/-- What a client is asked to publish by a step of its threads. -/
def Move.publishes : Move → List Frame
  | .publish _ frame _ => [frame]
  | _ => []

/-- The pattern that it is given. -/
def Move.pattern : Move → Option String
  | .rules act => act.pattern
  | _ => none

/-- And what it is asked to publish by one of the system. -/
def Act.publishes (id : ℕ) : Act → List Frame
  | .client other move => if other = id then move.publishes else []
  | _ => []

/-- The pattern that a step gives a client. -/
def Act.pattern : Act → Option String
  | .client _ move => move.pattern
  | _ => none

/-- And in all of a past. -/
def asked (id : ℕ) (past : Past Regex) : List Frame := past.flatMap fun (_, act, _) => act.publishes id

/-- What a step of the relay lets into the messages for a client, with the publisher it is of. -/
def lets (id : ℕ) (s : Dispatch.State Regex) (act : Dispatch.Act) (t : Dispatch.State Regex) :
    List (Dispatch.Publisher × Dispatch.Job) :=
  act.publisher.toList.flatMap fun p =>
    (Dispatch.admits p id s act t).map fun entry => (p, entry.1)

/-- The publishes that the relay let into the messages for a client, in their order. -/
def through (id : ℕ) (past : List (Dispatch.State Regex × Dispatch.Act × Dispatch.State Regex)) :
    List (Dispatch.Publisher × Dispatch.Job) :=
  past.flatMap fun (s, act, t) => lets id s act t

section Concat

variable (id : ℕ) (past : Past Regex) (s t : State Regex) (act : Act)

@[simp] theorem bus_concat : bus (past ++ [(s, act, t)]) = bus past ++ busStep s act t := by
  simp [bus]

@[simp] theorem offered_concat : offered id (past ++ [(s, act, t)]) = offered id past ++
    entered .message (s.clients id).dial.link.outbox (t.clients id).dial.link.outbox := by
  simp [offered]

@[simp] theorem controls_concat : controls id (past ++ [(s, act, t)]) = controls id past ++
    entered .control (s.clients id).dial.link.outbox (t.clients id).dial.link.outbox := by
  simp [controls]

@[simp] theorem asked_concat :
    asked id (past ++ [(s, act, t)]) = asked id past ++ act.publishes id := by
  simp [asked]

@[simp] theorem through_append
    (before after : List (Dispatch.State Regex × Dispatch.Act × Dispatch.State Regex)) :
    through id (before ++ after) = through id before ++ through id after := by
  simp [through]

end Concat

variable {engine : Engine Regex} {s t : State Regex} {act : Act}

/-- A step of the system is a step of the relay, or none. -/
theorem bus_step (hstep : step engine s act = some t) :
    (∃ a, busStep s act t = [(s.bus, a, t.bus)] ∧ Dispatch.step engine s.bus a = some t.bus) ∨
      busStep s act t = [] ∧ t.bus = s.bus := by
  cases act with
  | bus act =>
    have hbus : (Dispatch.step engine s.bus act).map (fun bus => { s with bus }) = some t := by
      cases act <;> first | exact hstep | cases hstep
    obtain ⟨relay, hrelay, rfl⟩ := Option.map_eq_some_iff.1 hbus
    exact .inl ⟨act, rfl, hrelay⟩
  | up id count =>
    obtain ⟨relay, hrelay, rfl⟩ := Option.map_eq_some_iff.1 hstep
    exact .inl ⟨_, rfl, hrelay⟩
  | client id move =>
    obtain ⟨c, -, rfl⟩ := Option.map_eq_some_iff.1 hstep
    exact .inr ⟨rfl, rfl⟩
  | read id cut torn =>
    simp only [step] at hstep
    split_ifs at hstep
    cases hstep
    exact .inr ⟨rfl, rfl⟩

/-- What is kept by the steps of the relay is kept by those of the system. -/
theorem keeps_of_bus {P : Dispatch.State Regex →
      List (Dispatch.State Regex × Dispatch.Act × Dispatch.State Regex) → Prop} {past : Past Regex}
    (keeps : ∀ u before a v, P u before → Dispatch.step engine u a = some v →
      P v (before ++ [(u, a, v)]))
    (h : P s.bus (bus past)) (hstep : step engine s act = some t) :
    P t.bus (bus (past ++ [(s, act, t)])) := by
  rw [bus_concat]
  rcases bus_step hstep with ⟨a, hbus, ha⟩ | ⟨hbus, hsame⟩ <;> rw [hbus]
  · exact keeps _ _ _ _ h ha
  · rwa [List.append_nil, hsame]

/-- What comes to the relay from a client in a step. -/
def comes (id : ℕ) (s : State Regex) (act : Act) (t : State Regex) : Bytes :=
  Dispatch.arrived id (busStep s act t)

/-- **What a step of the system is for one client**: a step of its threads, a read of the relay's, a
read of its own, or none. -/
theorem client_cases (hstep : step engine s act = some t) (id : ℕ) :
    (∃ move, act = .client id move ∧ (s.clients id).step engine move = some (t.clients id) ∧
      t.bus = s.bus) ∨
    (∃ count, act = .up id count ∧ comes id s act t = s.coming id count ∧
      t.clients id = { s.clients id with
        up := (s.clients id).up + (s.coming id count).length }) ∨
    (∃ cut torn, act = .read id cut torn ∧ t.bus = s.bus ∧
      t.clients id = (s.clients id).reads engine (s.wire id) cut torn) ∨
    (t.clients id = s.clients id ∧ act.publishes id = [] ∧ comes id s act t = []) := by
  have hother : ∀ (u : State Regex) (other : ℕ) (c : Client Regex), other ≠ id →
      (u.setClient other c).clients id = u.clients id := fun u other c hne =>
    Function.update_of_ne hne.symm _ _
  have hself : ∀ (u : State Regex) (c : Client Regex), (u.setClient id c).clients id = c :=
    fun u c => Function.update_self ..
  cases act with
  | bus act =>
    have hbus : (∀ other bytes, act ≠ .arrive other bytes) ∧
        (Dispatch.step engine s.bus act).map (fun bus => { s with bus }) = some t := by
      cases act <;> first | exact ⟨by simp, hstep⟩ | cases hstep
    obtain ⟨relay, -, rfl⟩ := Option.map_eq_some_iff.1 hbus.2
    refine .inr (.inr (.inr ⟨rfl, rfl, ?_⟩))
    cases act with
    | arrive other bytes => exact absurd rfl (hbus.1 other bytes)
    | request | publish | snapshot | visit | put | wake | relay => rfl
  | up other count =>
    obtain ⟨relay, -, rfl⟩ := Option.map_eq_some_iff.1 hstep
    rcases eq_or_ne other id with rfl | hne
    · exact .inr (.inl ⟨count, rfl, by simp [comes, busStep, Dispatch.arrived, Dispatch.arrives],
        hself _ _⟩)
    · exact .inr (.inr (.inr ⟨hother _ _ _ hne, rfl,
        by simp [comes, busStep, Dispatch.arrived, Dispatch.arrives, hne]⟩))
  | client other move =>
    obtain ⟨c, hc, rfl⟩ := Option.map_eq_some_iff.1 hstep
    rcases eq_or_ne other id with rfl | hne
    · exact .inl ⟨move, rfl, by rw [hself]; exact hc, rfl⟩
    · exact .inr (.inr (.inr ⟨hother _ _ _ hne, if_neg hne, rfl⟩))
  | read other cut torn =>
    simp only [step] at hstep
    split_ifs at hstep
    cases hstep
    rcases eq_or_ne other id with rfl | hne
    · exact .inr (.inr (.inl ⟨cut, torn, rfl, rfl, hself _ _⟩))
    · exact .inr (.inr (.inr ⟨hother _ _ _ hne, rfl, rfl⟩))

theorem arrived_bus_concat (id : ℕ) (past : Past Regex) (s t : State Regex) (act : Act) :
    Dispatch.arrived id (bus (past ++ [(s, act, t)])) =
      Dispatch.arrived id (bus past) ++ comes id s act t := by
  rw [bus_concat, Dispatch.arrived, List.flatMap_append]
  rfl

end LcmBus.Relayed
