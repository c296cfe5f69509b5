import LcmBus.Client.StreamReader
import LcmBus.Client.WriterEnds

/-!
# The life of a client

The threads of one client: the one that reads its bus, the writer of a dialled one, and all those that
call `close`, as the handler can do on the thread that reads.

* `State` and `step`: one step of any thread.  `close` and `ReaderExit` are a step for each of their
  accesses;
* `stops` and `handled`: of a past, what the handler was called for;
* `stepped_of_step`, `same_step`, `reader_step` and `closing_step`: what a step can be, and what it does
  to the bus, to the thread that reads and to a call of `close`.

A served relay has no reader of its own.  Its threads are those of `Serve`.
-/

namespace LcmBus.Life

open Relay

/-! ### The client and its threads -/

/-- The thread that reads for this client, or another one of the process. -/
inductive Thread
  | reader
  | other (id : ℕ)
  deriving DecidableEq, Repr

/-- `Stop`, with the one cause that no loop of a reader gives. -/
inductive Cause
  | stop (stop : Stop)
  | panicked
  deriving DecidableEq, Repr

/-- Where the thread that reads is. -/
inductive Reader
  /-- At the head of one of its loops. -/
  | looking
  /-- Behind it: it reads, decodes, or waits for the time of an event. -/
  | working
  /-- In `on_delivery`. -/
  | handling
  /-- In the `drop` of `ReaderExit`.  It is on the way down where the handler `panicked`. -/
  | leaving (cause : Option Cause) (panicked : Bool)
  /-- Behind the store of `writable` there. -/
  | swapping (cause : Option Cause) (panicked : Bool)
  /-- In `on_stop`. -/
  | reporting (cause : Cause)
  /-- There is no such thread any more, or there never was. -/
  | gone
  deriving DecidableEq, Repr

/-- The thread is in the code of the caller. -/
def Reader.inHandler : Reader → Bool
  | .handling | .reporting _ => true
  | _ => false

/-- What the thread comes to between two looks at `running`. -/
inductive Work
  /-- Nothing for the handler. -/
  | nothing
  | delivery
  /-- The end of the stream of a relay. -/
  | atEnd
  | stops (stop : Stop)
  /-- `wait_until` saw that `running` was cleared. -/
  | calledOff
  deriving DecidableEq, Repr

/-- Where a call of `close` is. -/
inductive Closing
  /-- Behind the store of `running`. -/
  | cleared
  /-- About to shut the outbox, to shut the sending half, and to take the handle of the writer. -/
  | shutting
  | hangingUp
  | atWriter
  /-- Waits for the writer. -/
  | joiningWriter
  /-- Reads what the relay is still sending. -/
  | lingering
  /-- About to take the handle of the thread that reads. -/
  | atReader
  | joining
  deriving DecidableEq, Repr

/-- What a dialled client shares with its writer. -/
structure Dialled where
  link : Link
  /-- The handle of the writer is there to be taken. -/
  held : Bool
  /-- The stream is at its end: the relay closed it, or the writer shut both halves. -/
  cut : Bool
  /-- What the writer stopped for. -/
  torn : Option IoError

inductive Transport
  | udpm
  | tcpq (dialled : Dialled)
  | log
  | replay

/-- A bus as it is opened. -/
inductive Bus
  | udpm (receives : Bool)
  | tcpq (receives : Bool)
  | log
  | replay
  deriving DecidableEq, Repr

/-- There is a handler, and a thread that reads for it. -/
def Bus.receives : Bus → Bool
  | .udpm receives | .tcpq receives => receives
  | .log => false
  | .replay => true

def Bus.transport : Bus → Transport
  | .udpm _ => .udpm
  | .tcpq _ => .tcpq ⟨.new, true, false, none⟩
  | .log => .log
  | .replay => .replay

structure State where
  transport : Transport
  running : Bool
  writable : Bool
  reader : Reader
  /-- The handle of the thread that reads is there to be taken. -/
  held : Bool
  closing : Thread → Option Closing

def start (bus : Bus) : State :=
  ⟨bus.transport, true, true, if bus.receives then .looking else .gone, bus.receives, fun _ => none⟩

namespace State

def isConnected (s : State) : Bool := s.running && s.writable

/-- The other half of a dialled client goes with its reader. -/
def takesWritable (s : State) : Bool :=
  match s.transport with
  | .tcpq _ => true
  | _ => false

/-- What the thread that reads comes to, where the loop of its bus can come to it. -/
def worked (s : State) : Work → Option State
  | .nothing => some { s with reader := .looking }
  | .delivery => some { s with reader := .handling }
  | .atEnd =>
    match s.transport with
    | .tcpq d =>
      if d.cut then some { s with
        transport := .tcpq { d with torn := none }
        reader := .leaving (some (.stop (d.torn.elim .closed .io))) false }
      else none
    | _ => none
  | .stops stop =>
    match s.transport, stop with
    | .udpm, .io _ | .tcpq _, .io _ | .tcpq _, .wire _ | .replay, .io _ | .replay, .wire _
    | .replay, .endOfLog | .replay, .tornLog =>
      some { s with reader := .leaving (some (.stop stop)) false }
    | _, _ => none
  | .calledOff =>
    match s.transport with
    | .replay => if s.running then none else some { s with reader := .leaving none false }
    | _ => none

/-- The thread of the writer is gone, or there is none. -/
def writerGone (s : State) : Bool :=
  match s.transport with
  | .tcpq d => decide (d.link.loop = .gone)
  | _ => true

def modify (s : State) (change : Dialled → Dialled) : State :=
  match s.transport with
  | .tcpq d => { s with transport := .tcpq (change d) }
  | _ => s

/-- The call of `close` by `t` is at `stage`, or has returned. -/
def sets (s : State) (t : Thread) (stage : Option Closing) : State :=
  { s with closing := Function.update s.closing t stage }

/-- The next step of a `close` that `t` is in. -/
def closeTurn (s : State) (t : Thread) : Closing → Option State
  | .cleared =>
    some ({ s with writable := false }.sets t
      (some (if s.takesWritable then .shutting else .atReader)))
  | .shutting => some ((s.modify fun d => { d with link := d.link.shut }).sets t (some .hangingUp))
  | .hangingUp => some ((s.modify fun d => { d with link := d.link.hangUp }).sets t (some .atWriter))
  | .atWriter =>
    match s.transport with
    | .tcpq d =>
      if d.held then some ({ s with transport := .tcpq { d with held := false } }.sets t
        (some .joiningWriter))
      else some (s.sets t (some .lingering))
    | _ => some (s.sets t (some .lingering))
  | .joiningWriter => if s.writerGone then some (s.sets t (some .lingering)) else none
  | .lingering => some (s.sets t (some .atReader))
  | .atReader =>
    -- A handler that closes its own client leaves the handle where it is.
    if s.held ∧ t ≠ .reader then some ({ s with held := false }.sets t (some .joining))
    else some (s.sets t none)
  | .joining => if s.reader = .gone then some (s.sets t none) else none

end State

inductive Act
  /-- The thread that reads looks at `running`. -/
  | look
  | works (work : Work)
  /-- `on_delivery` returns. -/
  | returns
  | panics
  /-- `ReaderExit` stores `writable`, and swaps `running`. -/
  | exits
  | swaps
  /-- `on_stop` returns, or what it panics with is caught. -/
  | reported
  /-- A step of the writer or of a caller of the outbox.  `e` is what a write failed with. -/
  | writer (act : Link.Act) (e : IoError)
  | peerCloses
  /-- A call of `close`, and the next step of it. -/
  | close (t : Thread)
  | closes (t : Thread)
  deriving DecidableEq, Repr

/-- The step is the one behind a frame that did not go whole, which shuts the socket. -/
def tears (link : Link) (act : Link.Act) : Bool :=
  decide (act = .finish ∧ link.loop = .finishing false)

/-- One step of one thread. -/
def step (s : State) : Act → Option State
  | .look =>
    match s.reader with
    | .looking => some { s with reader := if s.running then .working else .leaving none false }
    | _ => none
  | .works work =>
    match s.reader with
    | .working => s.worked work
    | _ => none
  | .returns =>
    if s.reader = .handling ∧ s.closing .reader = none then some { s with reader := .looking } else none
  | .panics =>
    if s.reader = .handling ∧ s.closing .reader = none then
      some { s with reader := .leaving (some .panicked) true }
    else none
  | .exits =>
    match s.reader with
    | .leaving cause panicked =>
      some { s with writable := s.writable && !s.takesWritable, reader := .swapping cause panicked }
    | _ => none
  | .swaps =>
    match s.reader with
    | .swapping cause panicked => some { s with
        running := false
        reader := if s.running || panicked then .reporting (cause.getD .panicked) else .gone }
    | _ => none
  | .reported =>
    match s.reader with
    | .reporting _ => if s.closing .reader = none then some { s with reader := .gone } else none
    | _ => none
  | .writer act e =>
    match s.transport with
    | .tcpq d => (Link.step s.running d.link act).map fun link => { s with
        transport := .tcpq { d with
          link
          cut := d.cut || tears d.link act
          torn := if tears d.link act then some e else d.torn }
        writable := s.writable && link.writable }
    | _ => none
  | .peerCloses =>
    match s.transport with
    | .tcpq d => some { s with transport := .tcpq { d with cut := true } }
    | _ => none
  | .close t =>
    if s.closing t = none ∧ (t = .reader → s.reader.inHandler) then
      some ({ s with running := false }.sets t (some .cleared))
    else none
  | .closes t => (s.closing t).bind (s.closeTurn t)

/-! ### What a past holds -/

abbrev Past := List (State × Act × State)

/-- What `on_stop` is told in a step. -/
def tells (act : Act) (t : State) : List Cause :=
  match act, t.reader with
  | .swaps, .reporting cause => [cause]
  | _, _ => []

/-- All that it was told. -/
def stops (past : Past) : List Cause := past.flatMap fun (_, act, t) => tells act t

/-- The calls of `on_delivery`. -/
def handled (past : Past) : ℕ := past.countP fun entry => entry.2.1 = .works .delivery

/-- Some call of `close` has begun. -/
def closed (past : Past) : Prop := ∃ entry ∈ past, ∃ t, entry.2.1 = .close t

/-- The handler panicked in `on_delivery`. -/
def panicked (past : Past) : Prop := ∃ entry ∈ past, entry.2.1 = .panics

/-- The loop of the thread that reads ended with this. -/
def ended (stop : Stop) (past : Past) : Prop :=
  ∃ entry ∈ past, entry.2.2.reader = .leaving (some (.stop stop)) false

section Concat

variable (past : Past) (s t : State) (act : Act)

@[simp] theorem stops_concat : stops (past ++ [(s, act, t)]) = stops past ++ tells act t := by
  simp [stops]

@[simp] theorem handled_concat : handled (past ++ [(s, act, t)]) =
    handled past + if act = .works .delivery then 1 else 0 := by
  simp [handled, List.countP_append, List.countP_singleton]

@[simp] theorem closed_concat : closed (past ++ [(s, act, t)]) ↔ closed past ∨ ∃ u, act = .close u := by
  simp [closed, or_and_right, exists_or]

@[simp] theorem panicked_concat : panicked (past ++ [(s, act, t)]) ↔ panicked past ∨ act = .panics := by
  simp [panicked, or_and_right, exists_or]

theorem ended_concat {stop : Stop} (h : ended stop past) : ended stop (past ++ [(s, act, t)]) := by
  obtain ⟨entry, hentry, hended⟩ := h
  exact ⟨entry, List.mem_append_left _ hentry, hended⟩

end Concat

/-! ### What a step does -/

variable {s t : State} {act : Act}

theorem dialled_start {bus : Bus} {d : Dialled} (h : (start bus).transport = .tcpq d) :
    d = ⟨.new, true, false, none⟩ := by
  unfold start Bus.transport at h
  cases bus with
  | tcpq receives => exact (Transport.tcpq.inj h).symm
  | udpm | log | replay => exact absurd h (by simp)

/-- What no step takes from a dialled client and its writer. -/
structure Dialled.Kept (d e : Dialled) : Prop where
  linked : d.link.Linked → e.link.Linked
  closed : d.link.Closed → e.link.Closed
  gone : d.link.loop = .gone → e.link.loop = .gone

theorem Dialled.Kept.of_link {d e : Dialled} (h : e.link = d.link) : d.Kept e := by
  constructor <;> rw [h] <;> exact id

/-- A writer that is gone takes no step, and what others do leaves it so. -/
theorem gone_of_step {running : Bool} {l m : Link} {act : Link.Act} (hgone : l.loop = .gone)
    (hstep : Link.step running l act = some m) : m.loop = .gone := by
  cases act <;> simp [Link.step, hgone, Loop.left] at hstep
  obtain ⟨-, outbox, -, rfl⟩ := hstep
  rfl

/-- A step, with what it found. -/
inductive Stepped (s : State) : Act → State → Prop
  | look (h : s.reader = .looking) :
    Stepped s .look { s with reader := if s.running then .working else .leaving none false }
  | nothing (h : s.reader = .working) : Stepped s (.works .nothing) { s with reader := .looking }
  | delivery (h : s.reader = .working) : Stepped s (.works .delivery) { s with reader := .handling }
  | atEnd {d : Dialled} (h : s.reader = .working) (hd : s.transport = .tcpq d) (hcut : d.cut = true) :
    Stepped s (.works .atEnd) { s with
      transport := .tcpq { d with torn := none }
      reader := .leaving (some (.stop (d.torn.elim .closed .io))) false }
  | stops {stop : Stop} (h : s.reader = .working) (hstop : stop ≠ .closed) :
    Stepped s (.works (.stops stop)) { s with reader := .leaving (some (.stop stop)) false }
  | calledOff (h : s.reader = .working) (hrunning : s.running = false) :
    Stepped s (.works .calledOff) { s with reader := .leaving none false }
  | returns (h : s.reader = .handling) (hfree : s.closing .reader = none) :
    Stepped s .returns { s with reader := .looking }
  | panics (h : s.reader = .handling) (hfree : s.closing .reader = none) :
    Stepped s .panics { s with reader := .leaving (some .panicked) true }
  | exits {cause : Option Cause} {unwinds : Bool} (h : s.reader = .leaving cause unwinds) :
    Stepped s .exits { s with
      writable := s.writable && !s.takesWritable, reader := .swapping cause unwinds }
  | swaps {cause : Option Cause} {unwinds : Bool} (h : s.reader = .swapping cause unwinds) :
    Stepped s .swaps { s with
      running := false
      reader := if s.running || unwinds then .reporting (cause.getD .panicked) else .gone }
  | reported {cause : Cause} (h : s.reader = .reporting cause) (hfree : s.closing .reader = none) :
    Stepped s .reported { s with reader := .gone }
  | writer {d : Dialled} {link : Link} {act : Link.Act} {e : IoError} (hd : s.transport = .tcpq d)
      (hlink : Link.step s.running d.link act = some link) :
    Stepped s (.writer act e) { s with
      transport := .tcpq { d with
        link
        cut := d.cut || tears d.link act
        torn := if tears d.link act then some e else d.torn }
      writable := s.writable && link.writable }
  | peerCloses {d : Dialled} (hd : s.transport = .tcpq d) :
    Stepped s .peerCloses { s with transport := .tcpq { d with cut := true } }
  | close {u : Thread} (hfree : s.closing u = none) (hnested : u = .reader → s.reader.inHandler = true) :
    Stepped s (.close u) ({ s with running := false }.sets u (some .cleared))
  | closes {u : Thread} {stage : Closing} {t : State} (hstage : s.closing u = some stage)
      (hturn : s.closeTurn u stage = some t) : Stepped s (.closes u) t

theorem stepped_of_worked {work : Work} (hreader : s.reader = .working) (hstep : s.worked work = some t) :
    Stepped s (.works work) t := by
  cases work with
  | nothing =>
    cases hstep
    exact .nothing hreader
  | delivery =>
    cases hstep
    exact .delivery hreader
  | atEnd =>
    simp only [State.worked] at hstep
    split at hstep
    · rename_i d hd
      split_ifs at hstep with hcut
      cases hstep
      exact .atEnd hreader hd hcut
    · cases hstep
  | stops stop =>
    simp only [State.worked] at hstep
    split at hstep
    case h_8 => cases hstep
    all_goals
      cases hstep
      exact .stops hreader nofun
  | calledOff =>
    simp only [State.worked] at hstep
    split at hstep
    · split_ifs at hstep with hrunning
      cases hstep
      exact .calledOff hreader (by simpa using hrunning)
    · cases hstep

theorem stepped_of_step (hstep : step s act = some t) : Stepped s act t := by
  cases act with
  | look | exits | swaps =>
    simp only [step] at hstep
    split at hstep <;> cases hstep
    constructor
    assumption
  | reported =>
    simp only [step] at hstep
    split at hstep
    · split_ifs at hstep with hfree
      cases hstep
      exact .reported ‹_› hfree
    · cases hstep
  | returns | panics | close u =>
    simp only [step] at hstep
    split_ifs at hstep with hcond
    cases hstep
    constructor
    · exact hcond.1
    · exact hcond.2
  | works work =>
    simp only [step] at hstep
    split at hstep
    · exact stepped_of_worked ‹_› hstep
    · cases hstep
  | peerCloses =>
    simp only [step] at hstep
    split at hstep
    · rename_i d hd
      cases hstep
      exact .peerCloses hd
    · cases hstep
  | writer act e =>
    simp only [step] at hstep
    split at hstep
    · rename_i d hd
      obtain ⟨link, hlink, rfl⟩ := Option.map_eq_some_iff.1 hstep
      exact .writer hd hlink
    · cases hstep
  | closes u =>
    obtain ⟨stage, hstage, hturn⟩ := Option.bind_eq_some_iff.1 hstep
    exact .closes hstage hturn

/-- What a step does to a dialled client: `close` takes the handle of the writer, and the stream comes to
its end by the writer or the relay. -/
def Same (s t : State) (act : Act) : Prop :=
  t.transport = s.transport ∨ ∃ d e, s.transport = .tcpq d ∧ t.transport = .tcpq e ∧ d.Kept e ∧
    (e.held = d.held ∨ e.held = false ∧ ∃ u, act = .closes u ∧ t.closing u = some .joiningWriter) ∧
    ((e.cut = d.cut ∧ e.torn = d.torn) ∨ e.torn ≠ none ∨ act = .peerCloses ∨ act = .works .atEnd)

theorem Same.modify {u : Thread} {stage : Option Closing} {change : Dialled → Dialled}
    (hkept : ∀ d, Dialled.Kept d (change d)) (hheld : ∀ d, (change d).held = d.held)
    (hcut : ∀ d, (change d).cut = d.cut) (htorn : ∀ d, (change d).torn = d.torn) :
    Same s ((s.modify change).sets u stage) act := by
  unfold Same State.modify State.sets
  split
  · exact .inr ⟨_, _, ‹_›, rfl, hkept _, .inl (hheld _), .inl ⟨hcut _, htorn _⟩⟩
  · exact .inl rfl

theorem same_closeTurn {u : Thread} {stage : Closing} (hstep : s.closeTurn u stage = some t) :
    Same s t (.closes u) := by
  cases stage with
  | cleared | lingering =>
    cases hstep
    exact .inl rfl
  | shutting =>
    cases hstep
    exact Same.modify (fun d => ⟨fun h => h.shut, fun _ => Link.closed_shut, fun h => h⟩)
      (fun _ => rfl) (fun _ => rfl) fun _ => rfl
  | hangingUp =>
    cases hstep
    exact Same.modify (fun d => ⟨fun h => h.hangUp, fun h => h, fun h => h⟩)
      (fun _ => rfl) (fun _ => rfl) fun _ => rfl
  | atWriter =>
    simp only [State.closeTurn] at hstep
    split at hstep
    · rename_i d hd
      split_ifs at hstep with hheld
      · cases hstep
        exact .inr ⟨d, _, hd, rfl, .of_link rfl, .inr ⟨rfl, u, rfl, Function.update_self ..⟩,
          .inl ⟨rfl, rfl⟩⟩
      · cases hstep
        exact .inl rfl
    · cases hstep
      exact .inl rfl
  | joiningWriter | atReader | joining =>
    simp only [State.closeTurn] at hstep
    split_ifs at hstep <;> cases hstep <;> exact .inl rfl

theorem same_step (hstep : step s act = some t) : Same s t act := by
  cases stepped_of_step hstep with
  | atEnd _ hd =>
    exact .inr ⟨_, _, hd, rfl, .of_link rfl, .inl rfl, .inr (.inr (.inr rfl))⟩
  | @writer d link act e hd hlink =>
    refine .inr ⟨_, _, hd, rfl, ⟨fun h => h.step hlink, fun h => h.step hlink, fun h => ?_⟩, .inl rfl, ?_⟩
    · exact gone_of_step h hlink
    · cases tears d.link act
      · exact .inl ⟨by simp, rfl⟩
      · exact .inr (.inl (by simp))
  | peerCloses hd => exact .inr ⟨_, _, hd, rfl, .of_link rfl, .inl rfl, .inr (.inr (.inl rfl))⟩
  | closes _ hturn => exact same_closeTurn hturn
  | _ => exact .inl rfl

/-! ### A turn of `close` -/

/-- The steps that a call of `close` has left. -/
def Closing.rank : Closing → ℕ
  | .cleared => 8
  | .shutting => 7
  | .hangingUp => 6
  | .atWriter => 5
  | .joiningWriter => 4
  | .lingering => 3
  | .atReader => 2
  | .joining => 1

/-- What a turn of `close` on the thread `u` does, from `stage` to `later`. -/
structure Turned (s t : State) (u : Thread) (stage : Closing) (later : Option Closing) : Prop where
  closing : t.closing = Function.update s.closing u later
  reader : t.reader = s.reader
  running : t.running = s.running
  nearer : later.elim 0 Closing.rank < stage.rank
  held : t.held = s.held ∨ (later = some .joining ∧ t.held = false)
  takes : stage = .atReader → u ≠ .reader → t.held = false
  joins : later = some .joining → u ≠ .reader
  joined : stage = .joining → s.reader = .gone
  joinedWriter : stage = .joiningWriter → s.writerGone = true
  shut : ∀ d, t.transport = .tcpq d → stage.rank ≤ 6 ∨ later = some .shutting ∨ d.link.Closed
  asks : 2 < stage.rank → 2 ≤ later.elim 0 Closing.rank
  takesWriter : ∀ d, t.transport = .tcpq d → 5 ≤ stage.rank →
    5 ≤ later.elim 0 Closing.rank ∨ d.held = false

theorem modify_transport {change : Dialled → Dialled} {e : Dialled}
    (h : (s.modify change).transport = .tcpq e) : ∃ d, s.transport = .tcpq d ∧ e = change d := by
  unfold State.modify at h
  split at h
  · exact ⟨_, ‹_›, (Transport.tcpq.inj h).symm⟩
  · exact absurd h (by simp_all)

@[simp] theorem modify_closing (change : Dialled → Dialled) : (s.modify change).closing = s.closing := by
  unfold State.modify
  split <;> rfl

@[simp] theorem modify_reader (change : Dialled → Dialled) : (s.modify change).reader = s.reader := by
  unfold State.modify
  split <;> rfl

@[simp] theorem modify_running (change : Dialled → Dialled) : (s.modify change).running = s.running := by
  unfold State.modify
  split <;> rfl

@[simp] theorem modify_held (change : Dialled → Dialled) : (s.modify change).held = s.held := by
  unfold State.modify
  split <;> rfl

theorem turned_of_closeTurn {u : Thread} {stage : Closing} (hstep : s.closeTurn u stage = some t) :
    ∃ later, Turned s t u stage later := by
  -- What the turns behind the shut of the outbox need not say.
  have hshut : stage.rank ≤ 6 → ∀ later : Option Closing, ∀ d, t.transport = .tcpq d →
      stage.rank ≤ 6 ∨ later = some .shutting ∨ d.link.Closed := fun hrank _ _ _ => .inl hrank
  cases stage with
  | cleared =>
    cases hstep
    have htakes : ∀ d, s.transport = .tcpq d → s.takesWritable = true := by
      intro d hd
      rw [State.takesWritable, hd]
    refine ⟨_, ⟨rfl, rfl, rfl, ?_, .inl rfl, nofun, ?_, nofun, nofun, fun d hd => ?_, ?_, fun d hd _ => ?_⟩⟩
    · cases s.takesWritable <;> decide
    · cases s.takesWritable <;> simp
    · exact .inr (.inl (by simp [htakes d hd]))
    · cases s.takesWritable <;> decide
    · exact .inl (by rw [if_pos (htakes d hd)]; decide)
  | shutting =>
    cases hstep
    refine ⟨some .hangingUp, ⟨?_, ?_, ?_, by decide, .inl ?_, nofun, nofun, nofun, nofun, ?_, by decide,
      fun _ _ _ => .inl (by decide)⟩⟩
    · simp [State.sets]
    · simp [State.sets]
    · simp [State.sets]
    · simp [State.sets]
    · intro e he
      obtain ⟨d, -, rfl⟩ := modify_transport he
      exact .inr (.inr Link.closed_shut)
  | hangingUp =>
    cases hstep
    refine ⟨some .atWriter, ⟨?_, ?_, ?_, by decide, .inl ?_, nofun, nofun, nofun, nofun,
      hshut (by decide) _, by decide, fun _ _ _ => .inl (by decide)⟩⟩
    · simp [State.sets]
    · simp [State.sets]
    · simp [State.sets]
    · simp [State.sets]
  | atWriter =>
    simp only [State.closeTurn] at hstep
    split at hstep
    · rename_i d hd
      split_ifs at hstep with hheld
      · cases hstep
        refine ⟨some .joiningWriter, ⟨rfl, rfl, rfl, by decide, .inl rfl, nofun, nofun, nofun, nofun,
          hshut (by decide) _, by decide, fun e he _ => .inr ?_⟩⟩
        cases he
        rfl
      · cases hstep
        refine ⟨some .lingering, ⟨rfl, rfl, rfl, by decide, .inl rfl, nofun, nofun, nofun, nofun,
          hshut (by decide) _, by decide, fun e he _ => .inr ?_⟩⟩
        cases Transport.tcpq.inj (hd.symm.trans he)
        simpa using hheld
    · rename_i hnone
      cases hstep
      exact ⟨some .lingering, ⟨rfl, rfl, rfl, by decide, .inl rfl, nofun, nofun, nofun, nofun,
        hshut (by decide) _, by decide, fun e he _ => absurd he (hnone e)⟩⟩
  | joiningWriter =>
    simp only [State.closeTurn] at hstep
    split_ifs at hstep with hgone
    cases hstep
    exact ⟨some .lingering, ⟨rfl, rfl, rfl, by decide, .inl rfl, nofun, nofun, nofun, fun _ => hgone,
      hshut (by decide) _, by decide, fun _ _ h => absurd h (by decide)⟩⟩
  | lingering =>
    cases hstep
    exact ⟨some .atReader, ⟨rfl, rfl, rfl, by decide, .inl rfl, nofun, nofun, nofun, nofun,
      hshut (by decide) _, by decide, fun _ _ h => absurd h (by decide)⟩⟩
  | atReader =>
    simp only [State.closeTurn] at hstep
    split_ifs at hstep with htakes
    · cases hstep
      exact ⟨some .joining, ⟨rfl, rfl, rfl, by decide, .inr ⟨rfl, rfl⟩, fun _ _ => rfl, fun _ => htakes.2, nofun,
        nofun, hshut (by decide) _, by decide, fun _ _ h => absurd h (by decide)⟩⟩
    · cases hstep
      refine ⟨none, ⟨rfl, rfl, rfl, by decide, .inl rfl, fun _ hu => ?_, nofun, nofun, nofun,
        hshut (by decide) _, by decide, fun _ _ h => absurd h (by decide)⟩⟩
      simpa [State.sets, hu] using htakes
  | joining =>
    simp only [State.closeTurn] at hstep
    split_ifs at hstep with hgone
    cases hstep
    exact ⟨none, ⟨rfl, rfl, rfl, by decide, .inl rfl, nofun, nofun, fun _ => hgone, nofun,
      hshut (by decide) _, by decide, fun _ _ h => absurd h (by decide)⟩⟩

/-- The thread that reads is where it was, but for its own steps, which it takes only while it is in no
call of `close`. -/
theorem reader_step (hstep : step s act = some t) :
    (s.reader = .gone → t.reader = .gone) ∧
      (t.reader = s.reader ∨ (s.reader.inHandler = true → s.closing .reader = none)) := by
  cases stepped_of_step hstep with
  | closes _ hturn =>
    obtain ⟨later, hturned⟩ := turned_of_closeTurn hturn
    rw [hturned.reader]
    exact ⟨id, .inl rfl⟩
  | returns h hfree | panics h hfree | reported h hfree => simp [h, hfree]
  | look h | nothing h | delivery h | atEnd h | stops h | calledOff h | exits h | swaps h =>
    simp [h, Reader.inHandler]
  | writer | peerCloses | close => exact ⟨id, .inl rfl⟩

/-- `running` is cleared by `close` and by `ReaderExit`, and is not set again. -/
theorem running_step (hstep : step s act = some t) : t.running = s.running ∨
    (t.running = false ∧ ((∃ u, act = .close u) ∨ act = .swaps)) := by
  cases stepped_of_step hstep with
  | closes _ hturn =>
    obtain ⟨later, hturned⟩ := turned_of_closeTurn hturn
    exact .inl hturned.running
  | close => exact .inr ⟨rfl, .inl ⟨_, rfl⟩⟩
  | swaps => exact .inr ⟨rfl, .inr rfl⟩
  | _ => exact .inl rfl

theorem closing_of_ne {u : Thread} (hclose : act ≠ .close u) (hcloses : act ≠ .closes u)
    (hstep : step s act = some t) : t.closing u = s.closing u := by
  cases stepped_of_step hstep with
  | @close v =>
    have hne : u ≠ v := fun hu => hclose (hu ▸ rfl)
    exact Function.update_of_ne hne ..
  | @closes v _ _ _ hturn =>
    have hne : u ≠ v := fun hu => hcloses (hu ▸ rfl)
    obtain ⟨later, hturned⟩ := turned_of_closeTurn hturn
    rw [hturned.closing, Function.update_of_ne hne]
  | _ => rfl

/-- Only `close` moves a call of it, or takes the handle of the thread that reads. -/
theorem closing_step (hclose : ∀ u, act ≠ .close u) (hcloses : ∀ u, act ≠ .closes u)
    (hstep : step s act = some t) : t.closing = s.closing ∧ t.held = s.held := by
  cases stepped_of_step hstep with
  | close => exact absurd rfl (hclose _)
  | closes => exact absurd rfl (hcloses _)
  | _ => exact ⟨rfl, rfl⟩

end LcmBus.Life
