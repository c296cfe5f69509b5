import LcmBus.Client.WriterEnds

/-!
# The relay, as the side that dials

The threads of one dialled client around its writer: its reader, which clears `running` on its way
out, and `close`, which clears it before it shuts the outbox.

* `State` and `step`: one step of any thread;
* `Sound`: a closed outbox comes with a writer that is to end;
* `count_writer_le`: so that one takes a few steps and no more.
-/

namespace LcmBus.Dial

open Relay

structure State where
  link : Link
  running : Bool
  /-- The calls of `close` that cleared `running`, and have not shut the outbox. -/
  closing : ℕ
  /-- Those that shut it, and not the stream. -/
  hangingUp : ℕ

inductive Act
  /-- A step of the writer, or a call of the outbox. -/
  | link (act : Link.Act)
  /-- `ReaderExit`. -/
  | readerExit
  /-- `close`, or a `connect` whose reader does not start. -/
  | close
  | closeShut
  | closeHangUp
  deriving DecidableEq, Repr

def State.new : State := ⟨.new, true, 0, 0⟩

/-- One step of one thread. -/
def step (s : State) : Act → Option State
  | .link act => (Link.step s.running s.link act).map fun link => { s with link }
  | .readerExit => some { s with running := false }
  | .close => some { s with running := false, closing := s.closing + 1 }
  | .closeShut =>
    if s.closing = 0 then none
    else some { s with
      link := s.link.shut, closing := s.closing - 1, hangingUp := s.hangingUp + 1 }
  | .closeHangUp =>
    if s.hangingUp = 0 then none
    else some { s with link := s.link.hangUp, hangingUp := s.hangingUp - 1 }

/-- The step is one of the writer. -/
def Act.ofWriter : Act → Bool
  | .link act => act.ofWriter
  | _ => false

/-- What holds of a dialled client in every state: nothing but its writer, on the way out, closes
the outbox before `running` is cleared. -/
structure Sound (s : State) : Prop where
  linked : s.link.Linked
  closing : s.closing ≠ 0 → s.running = false
  closed : s.link.Closed → s.running = false ∨ s.link.loop.left = true

theorem sound_new : Sound .new := ⟨Link.linked_new, by simp [State.new], fun h => by cases h⟩

variable {s t : State}

/-- What holds of a dialled client is kept by every step. -/
theorem Sound.step {act : Act} (h : Sound s) (hstep : step s act = some t) : Sound t := by
  cases act with
  | link act =>
    obtain ⟨link, hlink, rfl⟩ := Option.map_eq_some_iff.1 hstep
    refine ⟨h.linked.step hlink, h.closing, fun hclosed => ?_⟩
    rcases Link.isOpen_step hlink with hopen | ⟨hleft, -⟩
    · exact (h.closed (hopen.symm.trans hclosed)).imp_right fun hleft => Link.left_step hleft hlink
    · exact .inr hleft
  | readerExit =>
    cases hstep
    exact ⟨h.linked, fun _ => rfl, fun _ => .inl rfl⟩
  | close =>
    cases hstep
    exact ⟨h.linked, fun _ => rfl, fun _ => .inl rfl⟩
  | closeShut =>
    simp only [Dial.step] at hstep
    split_ifs at hstep with hclosing
    cases hstep
    have hrunning := h.closing hclosing
    exact ⟨h.linked.shut, fun _ => hrunning, fun _ => .inl hrunning⟩
  | closeHangUp =>
    simp only [Dial.step] at hstep
    split_ifs at hstep
    cases hstep
    exact ⟨h.linked.hangUp, h.closing, h.closed⟩

theorem sound_of_run {acts : List Act} (hrun : Machine.run step .new acts = some s) : Sound s :=
  Machine.run_invariant (fun _ _ _ h hstep => Sound.step h hstep) sound_new hrun

/-- The writer of a dialled client is to end where its outbox is closed. -/
theorem Sound.ending (h : Sound s) (hclosed : s.link.Closed) : Link.Ending s.running s.link :=
  (h.closed hclosed).imp_right .inl

/-- No step takes the writer of a closed outbox further from its end, and each one of its own takes
it nearer. -/
theorem Sound.rank_step {act : Act} (h : Sound s) (hclosed : s.link.Closed)
    (hstep : Dial.step s act = some t) : t.link.Closed ∧ t.link.rank ≤ s.link.rank ∧
      (act.ofWriter = true → t.link.rank < s.link.rank) := by
  cases act with
  | link act =>
    obtain ⟨link, hlink, rfl⟩ := Option.map_eq_some_iff.1 hstep
    obtain ⟨hle, hlt, -⟩ := h.linked.rank_step hclosed (h.ending hclosed) hlink
    exact ⟨hclosed.step hlink, hle, hlt⟩
  | readerExit | close =>
    cases hstep
    exact ⟨hclosed, le_rfl, by simp [Act.ofWriter]⟩
  | closeShut =>
    simp only [Dial.step] at hstep
    split_ifs at hstep
    cases hstep
    exact ⟨Link.closed_shut, le_rfl, by simp [Act.ofWriter]⟩
  | closeHangUp =>
    simp only [Dial.step] at hstep
    split_ifs at hstep
    cases hstep
    exact ⟨hclosed, s.link.rank_hangUp, by simp [Act.ofWriter]⟩

/-- **The writer of a dialled client takes no more than seven steps once its outbox is closed.** -/
theorem count_writer_le {acts : List Act} (h : Sound s) (hclosed : s.link.Closed)
    (hrun : Machine.run step s acts = some t) : acts.countP Act.ofWriter ≤ 7 := by
  have hcount := Machine.run_count_add_le (P := fun s => Sound s ∧ s.link.Closed)
    (f := fun s => s.link.rank) (q := Act.ofWriter)
    (fun s act t hs hstep => by
      obtain ⟨hclosed', hle, hlt⟩ := hs.1.rank_step hs.2 hstep
      exact ⟨⟨hs.1.step hstep, hclosed'⟩, hle, hlt⟩) ⟨h, hclosed⟩ hrun
  have := s.link.rank_le
  omega

/-- A writer that is not gone has a step to take. -/
theorem Sound.exists_step (h : Sound s) (hgone : s.link.loop ≠ .gone) :
    ∃ act t, act.ofWriter = true ∧ Dial.step s act = some t := by
  obtain ⟨a, link, ha, hlink⟩ := h.linked.exists_step hgone s.running
  exact ⟨.link a, _, ha, Option.map_eq_some_iff.2 ⟨link, hlink, rfl⟩⟩

end LcmBus.Dial
