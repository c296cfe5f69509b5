import LcmBus.Client.OutboxCounts

/-!
# The writer of a connection

`tcpq_writer` of `relay.rs`, the loop of the one thread that takes frames out of an outbox and puts
them on a socket.  A dialled client runs one, and a served relay one for each peer.

* `Loop`: where the thread is in the loop; `Link`: the outbox, the thread and the socket;
* `Link.step`: one step of the thread, or of a caller of the outbox.  `running` is the flag the
  thread watches, which is not its own;
* `Link.shut`, `Link.hangUp`: what the other threads do to a connection they end;
* `Linked`: what the outbox knows of the place of the thread;
* `Linked.step`, `Closed.step`: what every step keeps.
-/

namespace LcmBus.Relay

open Outbox

/-- Where `tcpq_writer` is. -/
inductive Loop
  /-- About to look at `running`. -/
  | top
  | taking
  /-- At the head of the inner loop, with the rest of the frame. -/
  | sending (rest : Bytes)
  /-- In the `write` of the socket. -/
  | writing (rest : Bytes)
  /-- Out of the inner loop: `went` says that the whole frame is on the socket. -/
  | finishing (went : Bool)
  /-- Out of the loop, where `WriterExit` shuts the outbox. -/
  | leaving
  | abandoning
  | gone
  deriving DecidableEq, Repr

/-- The thread is out of its loop. -/
def Loop.left : Loop → Bool
  | .leaving | .abandoning | .gone => true
  | _ => false

/-- What a `write` of the socket answers.  A timeout is a poll and no answer. -/
inductive Wrote
  | bytes (count : ℕ)
  | timedOut
  | failed
  deriving DecidableEq, Repr

/-- One connection: its outbox, the thread that writes, and the socket. -/
structure Link where
  outbox : Outbox.State
  loop : Loop
  writable : Bool
  /-- The sending half of the socket is shut, so a `write` of it fails. -/
  shutdown : Bool
  /-- What the socket took. -/
  wire : Bytes

namespace Link

def new : Link := ⟨.new, .top, true, false, []⟩

inductive Act
  /-- A publish, a subscribe or a flush of some other thread. -/
  | call (act : Outbox.Act)
  | look
  | take
  | check
  | write (wrote : Wrote) (stalled : Bool)
  | finish
  | exitShut
  | exitAbandon
  | panic
  deriving DecidableEq, Repr

end Link

namespace Link

/-- The loop behind a `write` that left `rest`: a stall ends the frame. -/
def afterWrite (rest : Bytes) (stalled : Bool) : Loop :=
  if rest ≠ [] ∧ stalled then .finishing false else .sending rest

/-- One step of the thread, or of a caller of the outbox. -/
def step (running : Bool) (l : Link) : Act → Option Link
  | .call act =>
    if act.ofCaller then (Outbox.step l.outbox act).map fun outbox => { l with outbox } else none
  | .look =>
    match l.loop with
    | .top => some { l with loop := if running then .taking else .leaving }
    | _ => none
  | .take =>
    match l.loop with
    | .taking => (Outbox.step l.outbox .take).map fun outbox =>
      { l with
        outbox
        loop := match outbox.writer with
          | .holding _ frame => .sending frame
          | _ => .top }
    | _ => none
  | .check =>
    match l.loop with
    | .sending rest => some { l with
        loop := if rest = [] then .finishing true
          -- The reader can stop inside one frame.
          else if running then .writing rest else .finishing false }
    | _ => none
  | .write wrote stalled =>
    match l.loop, wrote with
    | .writing _, .failed | .writing _, .bytes 0 => some { l with loop := .finishing false }
    | .writing rest, .bytes count =>
      if l.shutdown = false ∧ count ≤ rest.length then
        some { l with wire := l.wire ++ rest.take count, loop := afterWrite (rest.drop count) stalled }
      else none
    | .writing rest, .timedOut =>
      if l.shutdown then none else some { l with loop := afterWrite rest stalled }
    | _, _ => none
  | .finish =>
    match l.loop with
    | .finishing went => (Outbox.step l.outbox (.done went)).map fun outbox =>
      { l with
        outbox
        loop := if went then .top else .leaving
        writable := l.writable && went
        -- A stream holding half a frame carries nothing more.
        shutdown := l.shutdown || !went }
    | _ => none
  | .exitShut =>
    match l.loop with
    | .leaving => (Outbox.step l.outbox .exitShut).map fun outbox =>
      { l with outbox, loop := .abandoning }
    | _ => none
  | .exitAbandon =>
    match l.loop with
    | .abandoning => (Outbox.step l.outbox .exitAbandon).map fun outbox =>
      { l with outbox, loop := .gone }
    | _ => none
  | .panic => if l.loop.left then none else some { l with loop := .leaving, writable := false }

/-- Whether a step is one of the thread. -/
def Act.ofWriter : Act → Bool
  | .call _ => false
  | _ => true

/-- `Outbox::shut`, from outside the thread. -/
def shut (l : Link) : Link :=
  { l with outbox := { l.outbox with queue := l.outbox.queue.shut } }

/-- `TcpStream::shutdown` of the sending half, from outside the thread. -/
def hangUp (l : Link) : Link := { l with shutdown := true }

/-- The outbox is closed. -/
def Closed (l : Link) : Prop := l.outbox.queue.isOpen = false

/-- What the outbox knows of the place of the thread. -/
def Agrees (writer : Writer) : Loop → Prop
  | .top | .taking => writer = .idle
  | .sending _ | .writing _ | .finishing _ => ∃ lane frame, writer = .holding lane frame
  | .leaving => writer ≠ .leaving ∧ writer ≠ .gone
  | .abandoning => writer = .leaving
  | .gone => writer = .gone

/-- What holds of a link in every state: its outbox keeps its books, and agrees on the thread. -/
structure Linked (l : Link) : Prop where
  counted : Counted l.outbox
  agrees : Agrees l.outbox.writer l.loop

theorem linked_new : Linked new := ⟨counted_new, rfl⟩

variable {l t : Link} {running : Bool}

theorem Linked.shut (h : Linked l) : Linked l.shut :=
  ⟨h.counted.afterShut (.inl rfl), h.agrees⟩

theorem Linked.hangUp (h : Linked l) : Linked l.hangUp := ⟨h.counted, h.agrees⟩

@[simp] theorem shut_loop : l.shut.loop = l.loop := rfl

@[simp] theorem hangUp_loop : l.hangUp.loop = l.loop := rfl

@[simp] theorem closed_shut : l.shut.Closed := rfl

@[simp] theorem closed_hangUp : l.hangUp.Closed ↔ l.Closed := Iff.rfl

/-- A `write` leaves the thread at the head of the inner loop, where the socket is not shut, or out
of it with a frame that did not go. -/
theorem write_eq_some {wrote : Wrote} {stalled : Bool}
    (hstep : Link.step running l (.write wrote stalled) = some t) :
    ∃ rest, l.loop = .writing rest ∧
      ∃ loop, (loop = .finishing false ∨ l.shutdown = false ∧ ∃ rest, loop = .sending rest) ∧
      ∃ wire, t = { l with loop, wire } := by
  have hafter : l.shutdown = false → ∀ rest, afterWrite rest stalled = .finishing false ∨
      l.shutdown = false ∧ ∃ rest', afterWrite rest stalled = .sending rest' := fun hsocket rest => by
    unfold afterWrite
    split_ifs
    · exact .inl rfl
    · exact .inr ⟨hsocket, rest, rfl⟩
  simp only [Link.step] at hstep
  split at hstep
  · rename_i rest hloop
    cases hstep
    exact ⟨rest, hloop, _, .inl rfl, _, rfl⟩
  · rename_i rest hloop
    cases hstep
    exact ⟨rest, hloop, _, .inl rfl, _, rfl⟩
  · rename_i rest count _ hloop
    split_ifs at hstep with hsocket
    cases hstep
    exact ⟨rest, hloop, _, hafter hsocket.1 _, _, rfl⟩
  · rename_i rest hloop
    split_ifs at hstep with hsocket
    cases hstep
    exact ⟨rest, hloop, _, hafter (by simpa using hsocket) _, _, rfl⟩
  · cases hstep

theorem Agrees.of_not_left {writer : Writer} {loop : Loop} (h : Agrees writer loop)
    (hleft : ¬ loop.left) : writer ≠ .leaving ∧ writer ≠ .gone := by
  cases loop with
  | top | taking =>
    rw [show writer = .idle from h]
    exact ⟨by simp, by simp⟩
  | sending | writing | finishing =>
    obtain ⟨lane, frame, rfl⟩ := h
    exact ⟨by simp, by simp⟩
  | leaving | abandoning | gone => exact absurd rfl hleft

/-- **What holds of a link is kept by every step.** -/
theorem Linked.step (h : Linked l) {act : Act} (hstep : step running l act = some t) :
    Linked t := by
  have hagrees := h.agrees
  cases act with
  | call act =>
    simp only [Link.step] at hstep
    split_ifs at hstep with hcaller
    obtain ⟨outbox, houtbox, rfl⟩ := Option.map_eq_some_iff.1 hstep
    refine ⟨h.counted.step houtbox, ?_⟩
    obtain ⟨line, nextTicket, name, call, late, rfl⟩ := step_ofCaller hcaller houtbox
    exact hagrees
  | look =>
    simp only [Link.step] at hstep
    split at hstep
    · rename_i htop
      cases hstep
      rw [htop] at hagrees
      refine ⟨h.counted, ?_⟩
      cases running
      · exact hagrees.of_not_left (by simp [Loop.left])
      · exact hagrees
    · cases hstep
  | take =>
    simp only [Link.step] at hstep
    split at hstep
    · rename_i htaking
      obtain ⟨outbox, houtbox, rfl⟩ := Option.map_eq_some_iff.1 hstep
      refine ⟨h.counted.step houtbox, ?_⟩
      obtain ⟨hidle, rfl | ⟨lane, frame, rfl, -⟩⟩ := step_take houtbox
      · simp only [hidle]
        rfl
      · exact ⟨lane, frame, rfl⟩
    · cases hstep
  | check =>
    simp only [Link.step] at hstep
    split at hstep
    · rename_i rest hsending
      cases hstep
      rw [hsending] at hagrees
      refine ⟨h.counted, ?_⟩
      dsimp only
      split_ifs <;> exact hagrees
    · cases hstep
  | write wrote stalled =>
    obtain ⟨rest, hwriting, loop, hloop, wire, rfl⟩ := write_eq_some hstep
    refine ⟨h.counted, ?_⟩
    rw [hwriting] at hagrees
    rcases hloop with rfl | ⟨-, rest', rfl⟩ <;> exact hagrees
  | finish =>
    simp only [Link.step] at hstep
    split at hstep
    · rename_i went hfinishing
      obtain ⟨outbox, houtbox, rfl⟩ := Option.map_eq_some_iff.1 hstep
      refine ⟨h.counted.step houtbox, ?_⟩
      rw [hfinishing] at hagrees
      obtain ⟨lane, frame, hholding⟩ := hagrees
      simp only [Outbox.step, hholding, Option.some.injEq] at houtbox
      subst houtbox
      cases went
      · exact ⟨by simp, by simp⟩
      · rfl
    · cases hstep
  | exitShut =>
    simp only [Link.step] at hstep
    split at hstep
    · obtain ⟨outbox, houtbox, rfl⟩ := Option.map_eq_some_iff.1 hstep
      refine ⟨h.counted.step houtbox, ?_⟩
      simp only [Outbox.step] at houtbox
      split at houtbox <;> cases houtbox
      rfl
    · cases hstep
  | exitAbandon =>
    simp only [Link.step] at hstep
    split at hstep
    · obtain ⟨outbox, houtbox, rfl⟩ := Option.map_eq_some_iff.1 hstep
      refine ⟨h.counted.step houtbox, ?_⟩
      simp only [Outbox.step] at houtbox
      split at houtbox <;> cases houtbox
      rfl
    · cases hstep
  | panic =>
    simp only [Link.step] at hstep
    split_ifs at hstep with hleft
    cases hstep
    exact ⟨h.counted, h.agrees.of_not_left hleft⟩

/-- No step of a link closes the outbox but the one that takes the thread out. -/
theorem isOpen_step {act : Act} (hstep : Link.step running l act = some t) :
    t.outbox.queue.isOpen = l.outbox.queue.isOpen ∨ t.loop.left = true ∧ t.Closed := by
  cases act with
  | call act =>
    simp only [Link.step] at hstep
    split_ifs at hstep with hcaller
    obtain ⟨outbox, houtbox, rfl⟩ := Option.map_eq_some_iff.1 hstep
    rcases Outbox.isOpen_step houtbox with hopen | ⟨rfl | rfl, -⟩
    · exact .inl hopen
    · cases hcaller
    · cases hcaller
  | take | finish | exitAbandon =>
    simp only [Link.step] at hstep
    split at hstep
    · obtain ⟨outbox, houtbox, rfl⟩ := Option.map_eq_some_iff.1 hstep
      rcases Outbox.isOpen_step houtbox with hopen | ⟨hact | hact, -⟩
      · exact .inl hopen
      · cases hact
      · cases hact
    · cases hstep
  | exitShut =>
    simp only [Link.step] at hstep
    split at hstep
    · obtain ⟨outbox, houtbox, rfl⟩ := Option.map_eq_some_iff.1 hstep
      simp only [Outbox.step] at houtbox
      split at houtbox <;> cases houtbox
      exact .inr ⟨rfl, rfl⟩
    · cases hstep
  | look | check =>
    simp only [Link.step] at hstep
    split at hstep <;> cases hstep
    exact .inl rfl
  | write wrote stalled =>
    obtain ⟨_, -, _, -, _, rfl⟩ := write_eq_some hstep
    exact .inl rfl
  | panic =>
    simp only [Link.step] at hstep
    split_ifs at hstep
    cases hstep
    exact .inl rfl

/-- A closed outbox stays closed. -/
theorem Closed.step (h : l.Closed) {act : Act} (hstep : Link.step running l act = some t) :
    t.Closed := by
  rcases isOpen_step hstep with hopen | ⟨-, hclosed⟩
  · exact hopen.trans h
  · exact hclosed

/-- A thread that is out of its loop stays out. -/
theorem left_step (h : l.loop.left = true) {act : Act} (hstep : Link.step running l act = some t) :
    t.loop.left = true := by
  cases act with
  | call act =>
    simp only [Link.step] at hstep
    split_ifs at hstep
    obtain ⟨outbox, -, rfl⟩ := Option.map_eq_some_iff.1 hstep
    exact h
  | look | take | check | finish =>
    simp only [Link.step] at hstep
    split at hstep
    · rename_i hloop
      simp [hloop, Loop.left] at h
    · cases hstep
  | write wrote stalled =>
    obtain ⟨rest, hloop, -⟩ := write_eq_some hstep
    simp [hloop, Loop.left] at h
  | exitShut | exitAbandon =>
    simp only [Link.step] at hstep
    split at hstep
    · obtain ⟨outbox, -, rfl⟩ := Option.map_eq_some_iff.1 hstep
      rfl
    · cases hstep
  | panic => simp [Link.step, h] at hstep

end Link

end LcmBus.Relay
