import LcmBus.Client.LifeTells

/-!
# A client that hands its messages to a channel

`Client::connect_channel` of `mod.rs`: the handler `ToChannel`, which puts each message on a channel of
bounded depth, and `Deliveries`, the other end of it.

* `State` and `step`: the threads of the client, the channel, and the thread that takes from it;
* `given` and `received`: of a past, the messages that the handler was called with, and those taken;
* `Kept.step`: where each of them is;
* `counts_what_it_drops`: what holds in every run.
-/

namespace LcmBus.Deliveries

open Life (Bus)

variable {α : Type}

/-! ### The channel -/

/-- The deepest channel that `connect_channel` makes. -/
def deepestChannel : ℕ := 2 ^ 20

/-- The messages that a channel of this `depth` holds: one of none would be a rendezvous. -/
def room (depth : ℕ) : ℕ := max 1 (min depth deepestChannel)

structure State (α : Type) where
  life : Life.State
  /-- The messages on the channel. -/
  waiting : List α
  dropped : ℕ
  /-- There is a `Deliveries` to take them. -/
  kept : Bool

def start (bus : Bus) : State α := ⟨Life.start bus, [], 0, true⟩

inductive Act (α : Type)
  /-- A step of a thread of the client, but for the handler's. -/
  | life (act : Life.Act)
  /-- `on_delivery` of `ToChannel`. -/
  | gives (delivery : α)
  /-- `recv`, or the iterator. -/
  | recv
  /-- `try_recv`, or `recv_timeout` at its time. -/
  | tryRecv
  /-- The `Deliveries` is dropped. -/
  | drops
  deriving DecidableEq, Repr

/-- `ToChannel` returns from each call, and closes no client. -/
def ofHandler : Life.Act → Bool
  | .returns | .panics | .close .reader => true
  | _ => false

/-- One step of one thread.  The handler goes with the thread that reads, and the sender with it. -/
def step (depth : ℕ) (s : State α) : Act α → Option (State α)
  | .life act =>
    if ofHandler act then none else (Life.step s.life act).map fun life => { s with life }
  | .gives delivery => (Life.step s.life .returns).map fun life =>
    if s.kept ∧ s.waiting.length < room depth then
      { s with life, waiting := s.waiting ++ [delivery] }
    else { s with life, dropped := s.dropped + 1 }
  | .recv =>
    if s.kept then
      match s.waiting with
      | _ :: waiting => some { s with waiting }
      | [] => if s.life.reader = .gone then some s else none
    else none
  | .tryRecv =>
    if s.kept then
      match s.waiting with
      | _ :: waiting => some { s with waiting }
      | [] => some s
    else none
  | .drops => if s.kept then some { s with waiting := [], kept := false } else none

/-! ### What a past holds -/

abbrev Past (α : Type) := List (State α × Act α × State α)

/-- What the handler is called with in a step. -/
def gives : Act α → List α
  | .gives delivery => [delivery]
  | _ => []

def given (past : Past α) : List α := past.flatMap fun (_, act, _) => gives act

/-- What is taken off the channel in a step. -/
def takes (s : State α) : Act α → List α
  | .recv | .tryRecv => s.waiting.take 1
  | _ => []

def received (past : Past α) : List α := past.flatMap fun (s, act, _) => takes s act

/-- A `recv` said that there is nothing more. -/
def ended (past : Past α) : Prop := ∃ entry ∈ past, entry.2.1 = .recv ∧ entry.1.waiting = []

/-- The step of the client in a step. -/
def lifeStep (s : State α) (act : Act α) (t : State α) : Life.Past :=
  match act with
  | .life act => [(s.life, act, t.life)]
  | .gives _ => [(s.life, .returns, t.life)]
  | _ => []

/-- What the client went through. -/
def life (past : Past α) : Life.Past := past.flatMap fun (s, act, t) => lifeStep s act t

section Concat

variable (past : Past α) (s t : State α) (act : Act α)

@[simp] theorem given_concat : given (past ++ [(s, act, t)]) = given past ++ gives act := by
  simp [given]

@[simp] theorem received_concat : received (past ++ [(s, act, t)]) = received past ++ takes s act := by
  simp [received]

@[simp] theorem life_concat : life (past ++ [(s, act, t)]) = life past ++ lifeStep s act t := by
  simp [life]

@[simp] theorem ended_concat : ended (past ++ [(s, act, t)]) ↔
    ended past ∨ (act = .recv ∧ s.waiting = []) := by
  simp [ended, or_and_right, exists_or]

end Concat

/-! ### Where each message is -/

variable {depth : ℕ} {bus : Bus} {s t : State α} {act : Act α} {past : Past α}

/-- A call of `on_delivery` is one that has returned, or the one that the thread is in. -/
theorem handling_step {l m : Life.State} {act : Life.Act} (hact : ofHandler act = false)
    (hstep : Life.step l act = some m) :
    (if act = .works .delivery then 1 else 0) + (if l.reader = .handling then 1 else 0) =
      if m.reader = .handling then 1 else 0 := by
  cases Life.stepped_of_step hstep with
  | look hat =>
    rw [hat]
    cases l.running <;> rfl
  | nothing hat | delivery hat | atEnd hat | stops hat | calledOff hat | exits hat | reported hat =>
    simp [hat]
  | swaps hat =>
    rw [if_neg nofun, hat, if_neg nofun, if_neg (by split <;> exact nofun)]
  | returns | panics => cases hact
  | closes _ hturn =>
    obtain ⟨later, hturned⟩ := Life.turned_of_closeTurn hturn
    rw [if_neg nofun, Nat.zero_add, hturned.reader]
  | writer | peerCloses => rw [if_neg nofun, Nat.zero_add]
  | close =>
    rw [if_neg nofun, Nat.zero_add]
    rfl

/-- What holds of a channel and its client in every run. -/
structure Kept (depth : ℕ) (bus : Bus) (s : State α) (past : Past α) : Prop where
  told : Life.Told bus s.life (life past)
  /-- What is taken and what waits was given, in that order. -/
  order : (received past ++ s.waiting).Sublist (given past)
  counted : s.kept = true →
    (given past).length = (received past).length + s.waiting.length + s.dropped
  room : s.waiting.length ≤ room depth
  calls : Life.handled (life past) = (given past).length + if s.life.reader = .handling then 1 else 0
  ended : ended past → s.life.reader = .gone ∧ s.waiting = []

theorem kept_start (depth : ℕ) (bus : Bus) : Kept depth bus (start bus : State α) [] := by
  constructor
  · exact Life.told_start bus
  · exact List.Sublist.refl []
  · exact fun _ => rfl
  · exact Nat.zero_le _
  · have hreader : (Life.start bus).reader ≠ .handling := by
      unfold Life.start
      split <;> exact nofun
    change 0 = 0 + if (Life.start bus).reader = .handling then 1 else 0
    rw [if_neg hreader]
  · exact fun h => absurd h (by simp [Deliveries.ended])

/-- A step that takes from the channel. -/
theorem Kept.taken (h : Kept depth bus s past) {front : α} {waiting : List α}
    (hwaiting : s.waiting = front :: waiting) (hact : act = .recv ∨ act = .tryRecv) :
    Kept depth bus { s with waiting } (past ++ [(s, act, { s with waiting })]) := by
  have htakes : takes s act = [front] := by rcases hact with rfl | rfl <;> simp [takes, hwaiting]
  have hgives : gives act = [] := by rcases hact with rfl | rfl <;> rfl
  have hlife : lifeStep s act { s with waiting } = [] := by rcases hact with rfl | rfl <;> rfl
  have hne : s.waiting ≠ [] := by simp [hwaiting]
  constructor
  · simpa [hlife] using h.told
  · simpa [htakes, hgives, hwaiting] using h.order
  · intro hkept
    have := h.counted hkept
    simp only [given_concat, hgives, received_concat, htakes, List.append_nil, List.length_append,
      List.length_singleton]
    rw [hwaiting, List.length_cons] at this
    omega
  · have := h.room
    rw [hwaiting, List.length_cons] at this
    exact Nat.le_of_succ_le this
  · simpa [hlife, hgives] using h.calls
  · intro hended
    rcases (ended_concat ..).1 hended with hended | ⟨-, hnone⟩
    · exact absurd (h.ended hended).2 hne
    · exact absurd hnone hne

/-- A step of the client that the handler has no part in. -/
theorem Kept.lives (h : Kept depth bus s past) {act : Life.Act} {m : Life.State}
    (hact : ofHandler act = false) (hstep : Life.step s.life act = some m) :
    Kept depth bus { s with life := m } (past ++ [(s, .life act, { s with life := m })]) := by
  constructor
  · simpa [lifeStep] using h.told.step hstep
  · simpa [gives, takes] using h.order
  · simpa [gives, takes] using h.counted
  · exact h.room
  · have hcalls := h.calls
    have hhandling := handling_step hact hstep
    simp only [life_concat, lifeStep, Life.handled_concat, given_concat, gives, List.append_nil]
    omega
  · intro hended
    obtain ⟨hgone, hnone⟩ := h.ended (by simpa using hended)
    exact ⟨(Life.reader_step hstep).1 hgone, hnone⟩

/-- A call of the handler. -/
theorem Kept.gave (h : Kept depth bus s past) {delivery : α} {m : Life.State}
    (hstep : Life.step s.life .returns = some m) {waiting : List α} {dropped : ℕ}
    (hwaiting : (s.waiting.length < Deliveries.room depth ∧ waiting = s.waiting ++ [delivery] ∧
        dropped = s.dropped) ∨ (waiting = s.waiting ∧ dropped = s.dropped + 1)) :
    Kept depth bus { s with life := m, waiting, dropped }
      (past ++ [(s, .gives delivery, { s with life := m, waiting, dropped })]) := by
  have hhandling : s.life.reader = .handling ∧ m.reader = .looking := by
    cases Life.stepped_of_step hstep with
    | returns hat => exact ⟨hat, rfl⟩
  constructor
  · simpa [lifeStep] using h.told.step hstep
  · rcases hwaiting with ⟨-, rfl, -⟩ | ⟨rfl, -⟩
    · simpa [gives, takes, ← List.append_assoc] using h.order.append (List.Sublist.refl [delivery])
    · simpa [gives, takes] using h.order.trans (List.sublist_append_left _ [delivery])
  · intro hkept
    have := h.counted hkept
    simp only [given_concat, gives, received_concat, takes, List.append_nil, List.length_append,
      List.length_singleton]
    rcases hwaiting with ⟨-, rfl, rfl⟩ | ⟨rfl, rfl⟩
    · rw [List.length_append, List.length_singleton]
      omega
    · omega
  · rcases hwaiting with ⟨hroom, rfl, -⟩ | ⟨rfl, -⟩
    · rw [List.length_append, List.length_singleton]
      exact hroom
    · exact h.room
  · have hcalls := h.calls
    simp only [life_concat, lifeStep, Life.handled_concat, given_concat, gives, List.length_append,
      List.length_singleton]
    rw [if_pos hhandling.1] at hcalls
    rw [if_neg nofun, if_neg (by simp [hhandling.2])]
    omega
  · intro hended
    have hgone := (h.ended (by simpa using hended)).1
    exact absurd (hgone.symm.trans hhandling.1) nofun

/-- A look at a channel with nothing on it. -/
theorem Kept.looked (h : Kept depth bus s past) (hnone : s.waiting = [])
    (hact : (act = .recv ∧ s.life.reader = .gone) ∨ act = .tryRecv) :
    Kept depth bus s (past ++ [(s, act, s)]) := by
  have htakes : takes s act = [] := by rcases hact with ⟨rfl, -⟩ | rfl <;> simp [takes, hnone]
  have hgives : gives act = [] := by rcases hact with ⟨rfl, -⟩ | rfl <;> rfl
  have hlife : lifeStep s act s = [] := by rcases hact with ⟨rfl, -⟩ | rfl <;> rfl
  constructor
  · simpa [hlife] using h.told
  · simpa [htakes, hgives] using h.order
  · simpa [htakes, hgives] using h.counted
  · exact h.room
  · simpa [hlife, hgives] using h.calls
  · intro hended
    rcases (ended_concat ..).1 hended with hended | ⟨rfl, -⟩
    · exact h.ended hended
    · rcases hact with ⟨-, hgone⟩ | hact
      · exact ⟨hgone, hnone⟩
      · cases hact

/-- The end of the `Deliveries`, which takes what waits with it. -/
theorem Kept.left (h : Kept depth bus s past) : Kept depth bus { s with waiting := [], kept := false }
    (past ++ [(s, .drops, { s with waiting := [], kept := false })]) := by
  constructor
  · simpa [lifeStep] using h.told
  · simpa [gives, takes] using (List.sublist_append_left _ _).trans h.order
  · exact nofun
  · exact Nat.zero_le _
  · simpa [lifeStep, gives] using h.calls
  · exact fun hended => ⟨(h.ended (by simpa using hended)).1, rfl⟩

theorem Kept.step (h : Kept depth bus s past) (hstep : step depth s act = some t) :
    Kept depth bus t (past ++ [(s, act, t)]) := by
  cases act with
  | life act =>
    simp only [Deliveries.step] at hstep
    split_ifs at hstep with hact
    obtain ⟨m, hm, rfl⟩ := Option.map_eq_some_iff.1 hstep
    exact h.lives (by simpa using hact) hm
  | gives delivery =>
    obtain ⟨m, hm, rfl⟩ := Option.map_eq_some_iff.1 hstep
    split_ifs with hroom
    · exact h.gave hm (.inl ⟨hroom.2, rfl, rfl⟩)
    · exact h.gave hm (.inr ⟨rfl, rfl⟩)
  | recv =>
    simp only [Deliveries.step] at hstep
    split at hstep
    · split at hstep
      · cases hstep
        exact h.taken ‹_› (.inl rfl)
      · split at hstep
        · cases hstep
          exact h.looked ‹_› (.inl ⟨rfl, ‹_›⟩)
        · cases hstep
    · cases hstep
  | tryRecv =>
    simp only [Deliveries.step] at hstep
    split at hstep
    · split at hstep
      · cases hstep
        exact h.taken ‹_› (.inr rfl)
      · cases hstep
        exact h.looked ‹_› (.inr rfl)
    · cases hstep
  | drops =>
    simp only [Deliveries.step] at hstep
    split at hstep
    · cases hstep
      exact h.left
    · cases hstep

theorem kept_of_run {acts : List (Act α)} (hrun : Machine.run (step depth) (start bus) acts = some s) :
    Kept depth bus s (Machine.transitions (step depth) (start bus) acts) := by
  have hhistory := Machine.run_history (P := Kept depth bus) (fun _ _ _ _ h hstep => h.step hstep)
    (kept_start depth bus) hrun
  rwa [List.nil_append] at hhistory

/-- A message is dropped where the channel is full, or there is no one to take it. -/
theorem full_of_dropped (hstep : step depth s act = some t) (hdropped : t.dropped ≠ s.dropped)
    (hroom : s.waiting.length ≤ room depth) : s.waiting.length = room depth ∨ s.kept = false := by
  cases act with
  | gives delivery =>
    obtain ⟨m, -, rfl⟩ := Option.map_eq_some_iff.1 hstep
    split_ifs at hdropped with hfits
    · exact absurd rfl hdropped
    · cases hkept : s.kept with
      | false => exact .inr rfl
      | true =>
        have : ¬ s.waiting.length < room depth := fun hlt => hfits ⟨hkept, hlt⟩
        exact .inl (by omega)
  | life act =>
    simp only [Deliveries.step] at hstep
    split at hstep
    · cases hstep
    · obtain ⟨m, -, rfl⟩ := Option.map_eq_some_iff.1 hstep
      exact absurd rfl hdropped
  | recv | tryRecv | drops =>
    simp only [Deliveries.step] at hstep
    repeat' split at hstep
    all_goals cases hstep
    all_goals exact absurd rfl hdropped

theorem dropped_of_run {acts : List (Act α)} (hrun : Machine.run (step depth) (start bus) acts = some s) :
    ∀ entry ∈ Machine.transitions (step depth) (start bus) acts,
      entry.2.2.dropped ≠ entry.1.dropped → entry.1.waiting.length = room depth ∨ entry.1.kept = false := by
  have hhistory := Machine.run_history (P := fun s past => Kept depth bus s past ∧
      ∀ entry ∈ past, entry.2.2.dropped ≠ entry.1.dropped →
        entry.1.waiting.length = room depth ∨ entry.1.kept = false)
    (fun s past act t ⟨h, hall⟩ hstep => by
      refine ⟨h.step hstep, fun entry hentry hdropped => ?_⟩
      rcases List.mem_append.1 hentry with hentry | hentry
      · exact hall entry hentry hdropped
      · cases List.mem_singleton.1 hentry
        exact full_of_dropped hstep hdropped h.room)
    (⟨kept_start depth bus, by simp⟩ : Kept depth bus (start bus : State α) [] ∧ _) hrun
  rw [List.nil_append] at hhistory
  exact hhistory.2

/-- **A channel loses no message that it does not count.**  What was taken off it and what waits is, in
their order, what the handler was called with but for the dropped ones, each of which found the channel
full or no one there to take it; no more than `room depth` wait.  A `recv` says that there is nothing more
only where the thread that reads is gone, and then every call of the handler was taken or counted. -/
theorem counts_what_it_drops {acts : List (Act α)}
    (hrun : Machine.run (step depth) (start bus) acts = some s) :
    let past := Machine.transitions (step depth) (start bus) acts
    (received past ++ s.waiting).Sublist (given past) ∧
    (s.kept = true → (given past).length = (received past).length + s.waiting.length + s.dropped) ∧
    s.waiting.length ≤ room depth ∧
    (∀ entry ∈ past, entry.2.2.dropped ≠ entry.1.dropped →
      entry.1.waiting.length = room depth ∨ entry.1.kept = false) ∧
    Life.handled (life past) = (given past).length + (if s.life.reader = .handling then 1 else 0) ∧
    (ended past → s.life.reader = .gone ∧ (bus.receives = true → s.life.isConnected = false) ∧
      (s.kept = true → Life.handled (life past) = (received past).length + s.dropped)) := by
  intro past
  have h := kept_of_run hrun
  refine ⟨h.order, h.counted, h.room, dropped_of_run hrun, h.calls, fun hended => ?_⟩
  obtain ⟨hgone, hnone⟩ := h.ended hended
  refine ⟨hgone, fun hreceives => ?_, fun hkept => ?_⟩
  · have hphase := h.told.phase
    rw [hgone] at hphase
    have hrunning : s.life.running = false := by
      rcases hphase with ⟨hnot, -⟩ | ⟨hfalse, -⟩ | ⟨hfalse, -⟩
      · exact absurd hreceives (by simp [hnot])
      · exact hfalse
      · exact hfalse
    rw [Life.State.isConnected, hrunning, Bool.false_and]
  · rw [h.calls, h.counted hkept, hnone, hgone]
    rfl

/-- A channel for one message, three messages, and a client that is closed. -/
def oneOfThree : List (Act ℕ) :=
  [.life .look, .life (.works .delivery), .gives 7, .life .look, .life (.works .delivery), .gives 8, .recv,
    .life .look, .life (.works .delivery), .gives 9, .life (.close (.other 0)), .life .look, .life .exits,
    .life .swaps, .recv, .recv]

/-- The second one is dropped and counted. -/
theorem counts_what_it_drops_of_oneOfThree :
    let past := Machine.transitions (step 0) (start (.udpm true)) oneOfThree
    ∃ s, Machine.run (step 0) (start (.udpm true)) oneOfThree = some s ∧ received past = [7, 9] ∧
      s.dropped = 1 ∧ s.waiting.length ≤ room 0 ∧ Life.handled (life past) = 2 + 1 := by
  intro past
  have hend : (Machine.run (step 0) (start (.udpm true)) oneOfThree).map (fun s => (s.kept, s.dropped)) =
      some (true, 1) := by decide +kernel
  obtain ⟨s, hrun, hs⟩ := Option.map_eq_some_iff.1 hend
  obtain ⟨hkept, hdropped⟩ := Prod.mk.inj hs
  have hreceived : received past = [7, 9] := by decide +kernel
  have hended : ended past := by
    have hany : (past.any fun entry => entry.2.1 = .recv ∧ entry.1.waiting = []) = true := by decide +kernel
    obtain ⟨entry, hentry, hact⟩ := List.any_eq_true.1 hany
    exact ⟨entry, hentry, of_decide_eq_true hact⟩
  obtain ⟨-, -, hroom, -, -, hall⟩ := counts_what_it_drops hrun
  have hcount := (hall hended).2.2 hkept
  rw [hreceived, hdropped] at hcount
  exact ⟨s, hrun, hreceived, hdropped, hroom, hcount⟩

end LcmBus.Deliveries
