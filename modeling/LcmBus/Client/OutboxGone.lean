import LcmBus.Client.OutboxOrder

/-!
# The flush that says gone

`flushed` gives up on a closed queue, while the frame in hand may still go.

* `State.left`: the frames of a lane that the writer may still report to have gone;
* `Ending.step` and `Ending.went_le`: where nothing more is let in, it reports no others;
* `exists_goes`: it may report all of them;
* `NeverGoes`: in every continuation, a frame that was let in before the flush is not reported;
* `gone_iff`: the answer is right exactly where one of the frames counted is not left any more, and
  `gone_and_went`: a flush that says gone, of a frame that goes.
-/

namespace LcmBus.Outbox

variable {s t : State}

/-- The frames of a lane that the writer may still report: the one it holds and those that wait, as long
as it is in its loop. -/
def State.left (s : State) (lane : Lane) : List Bytes :=
  if s.writer.working then s.held lane ++ s.queue.frames lane else []

theorem left_of_working (h : s.writer.working = true) (lane : Lane) :
    s.left lane = s.held lane ++ s.queue.frames lane := if_pos h

theorem left_of_not_working (h : s.writer.working = false) (lane : Lane) : s.left lane = [] := by
  rw [State.left, h]
  rfl

/-- A writer that works was working. -/
theorem working_of_step {act : Act} (hstep : step s act = some t) (h : t.writer.working = true) :
    s.writer.working = true := by
  cases act with
  | putMessage | putControl | flush | wake =>
    obtain ⟨line, nextTicket, name, call, late, rfl⟩ := step_ofCaller rfl hstep
    exact h
  | take => rw [(step_take hstep).1]; rfl
  | done ok =>
    simp only [step] at hstep
    split at hstep
    · rename_i held frame hholding
      rw [hholding]
      rfl
    · cases hstep
  | shut | abandon =>
    cases hstep
    exact h
  | exitShut | exitAbandon =>
    simp only [step] at hstep
    split at hstep <;> cases hstep
    cases h

/-! ### Nothing more is let in -/

/-- A writer that is in its loop has a queue that is closed. -/
def Ending (s : State) : Prop := s.writer.working = true → s.queue.isOpen = false

namespace Ending

theorem step (h : Ending s) {act : Act} (hstep : Outbox.step s act = some t) : Ending t := by
  intro hworking
  have hclosed := h (working_of_step hstep hworking)
  rcases isOpen_step hstep with hsame | ⟨-, hshut⟩
  · exact hsame.trans hclosed
  · exact hshut

/-- What a step reports was left, and nothing comes to it. -/
theorem left_step (h : Ending s) {act : Act} (hstep : Outbox.step s act = some t) (lane : Lane) :
    (reported lane s act).length + (t.left lane).length ≤ (s.left lane).length := by
  cases hworking : t.writer.working with
  | false =>
    rw [left_of_not_working hworking, List.length_nil, Nat.add_zero]
    cases act with
    | done ok =>
      simp only [Outbox.step] at hstep
      split at hstep
      · rename_i held frame hholding
        cases hstep
        cases ok
        · exact Nat.zero_le _
        · cases hworking
      · cases hstep
    | _ => exact Nat.zero_le _
  | true =>
    have hwas := working_of_step hstep hworking
    have hclosed := h hwas
    rw [left_of_working hworking, left_of_working hwas]
    cases act with
    | putMessage | putControl | flush | wake =>
      obtain ⟨line, nextTicket, name, call, late, rfl⟩ := step_ofCaller rfl hstep
      obtain ⟨-, ⟨-, hframes⟩ | ⟨_, hopen, -⟩⟩ :=
        call.turn_lane { s.queue with line, nextTicket } late lane
      · rw [State.turn_queue, hframes]
        cases lane <;> exact (Nat.zero_add _).le
      · rw [show s.queue.isOpen = true from hopen] at hclosed
        cases hclosed
    | take =>
      obtain ⟨hidle, rfl | ⟨held, frame, queue, htake, rfl⟩⟩ := step_take_frame hstep
      · exact (Nat.zero_add _).le
      · obtain ⟨hfirst, hothers, -⟩ := s.queue.take_frames htake
        by_cases hlane : held = lane
        · subst hlane
          simp [reported, State.held, hidle, hfirst]
        · simp [reported, State.held, hidle, hlane, hothers lane (Ne.symm hlane)]
    | done ok =>
      simp only [Outbox.step] at hstep
      split at hstep <;> cases hstep
      cases ok
      · cases hworking
      · simp [reported, State.held, s.queue.done_frames lane true]
    | shut =>
      cases hstep
      simp [reported, State.held, s.queue.shut_frames lane]
    | abandon =>
      cases hstep
      rw [Queue.abandon_eq_done, s.queue.done_frames lane false]
      exact (Nat.zero_add _).le
    | exitShut | exitAbandon =>
      simp only [Outbox.step] at hstep
      split at hstep <;> cases hstep
      cases hworking

/-- Behind every run no more has gone than was left. -/
theorem went_le (h : Ending s) {more : List Act} (hrun : Machine.run Outbox.step s more = some t)
    (lane : Lane) : (went lane (Machine.transitions Outbox.step s more)).length ≤ (s.left lane).length := by
  have hnew : Ending s ∧ (went lane []).length + (s.left lane).length ≤ (s.left lane).length :=
    ⟨h, (Nat.zero_add _).le⟩
  have hall := Machine.run_history
    (P := fun u past => Ending u ∧ (went lane past).length + (u.left lane).length ≤ (s.left lane).length)
    (fun u past act v hu hstep => by
      have hstep' := hu.1.left_step hstep lane
      refine ⟨hu.1.step hstep, ?_⟩
      rw [went_concat, List.length_append]
      omega) hnew hrun
  rw [List.nil_append] at hall
  omega

end Ending

/-! ### All that is left may go -/

/-- A writer that is idle may take what waits and report it, one frame behind the other. -/
theorem exists_goes_of_idle {waiting : ℕ} (hidle : s.writer = .idle)
    (hwaiting : (s.queue.frames .message).length + (s.queue.frames .control).length = waiting) :
    ∃ more u, Machine.run step s more = some u ∧
      ∀ lane, went lane (Machine.transitions step s more) = s.queue.frames lane := by
  induction waiting generalizing s with
  | zero =>
    refine ⟨[], s, rfl, fun lane => ?_⟩
    cases lane
    · exact (List.length_eq_zero_iff.1 (by omega)).symm
    · exact (List.length_eq_zero_iff.1 (by omega)).symm
  | succ waiting ih =>
    rcases htake : s.queue.take with ⟨_ | ⟨held, frame⟩, queue⟩
    · rcases s.queue.take_cases with ⟨-, hcontrol, hmessages⟩ | ⟨_, _, htaken, -⟩
      · simp [Queue.frames, hcontrol, hmessages] at hwaiting
      · rw [htake] at htaken
        cases htaken
    · obtain ⟨hfirst, hothers, -⟩ := s.queue.take_frames htake
      let taken : State := { s with queue, writer := .holding held frame }
      let next : State := { taken with queue := queue.done true, writer := .idle }
      have hstep : step s .take = some taken := by simp only [step, hidle, htake]; rfl
      have hdone : step taken (.done true) = some next := rfl
      have hless : (next.queue.frames .message).length + (next.queue.frames .control).length =
          waiting := by
        rw [show next.queue = queue.done true from rfl, queue.done_frames, queue.done_frames]
        cases held with
        | message =>
          rw [hfirst, List.length_cons, ← hothers .control (by simp)] at hwaiting
          omega
        | control =>
          rw [hfirst, List.length_cons, ← hothers .message (by simp)] at hwaiting
          omega
      obtain ⟨more, u, hrun, hwent⟩ := ih rfl hless
      refine ⟨.take :: .done true :: more, u, ?_, fun lane => ?_⟩
      · exact Machine.run_cons_eq_some.2 ⟨taken, hstep, Machine.run_cons_eq_some.2 ⟨next, hdone, hrun⟩⟩
      · rw [Machine.transitions_cons hstep, Machine.transitions_cons hdone]
        show reported lane s .take ++ (reported lane taken (.done true) ++
          went lane (Machine.transitions step next more)) = _
        rw [hwent, queue.done_frames lane true]
        by_cases hlane : held = lane
        · subst hlane
          simp [reported, State.held, taken, hfirst]
        · simp [reported, State.held, taken, hlane, hothers lane (Ne.symm hlane)]

/-- **All that is left may go.** -/
theorem exists_goes (s : State) :
    ∃ more u, Machine.run step s more = some u ∧
      ∀ lane, went lane (Machine.transitions step s more) = s.left lane := by
  cases hwriter : s.writer with
  | idle =>
    obtain ⟨more, u, hrun, hwent⟩ := exists_goes_of_idle hwriter rfl
    refine ⟨more, u, hrun, fun lane => (hwent lane).trans ?_⟩
    rw [left_of_working (by rw [hwriter]; rfl), State.held, hwriter]
    rfl
  | holding held frame =>
    let next : State := { s with queue := s.queue.done true, writer := .idle }
    have hdone : step s (.done true) = some next := by simp only [step, hwriter]; rfl
    obtain ⟨more, u, hrun, hwent⟩ := exists_goes_of_idle (s := next) rfl rfl
    refine ⟨.done true :: more, u, Machine.run_cons_eq_some.2 ⟨next, hdone, hrun⟩, fun lane => ?_⟩
    rw [Machine.transitions_cons hdone, left_of_working (by rw [hwriter]; rfl)]
    show s.held lane ++ went lane (Machine.transitions step next more) = _
    rw [hwent, s.queue.done_frames lane true]
  | stopped | leaving | gone =>
    exact ⟨[], s, rfl, fun lane => (left_of_not_working (by rw [hwriter]; rfl) lane).symm⟩

/-! ### The answer -/

/-- In every continuation of a run that came to a state, a frame that was let in before the flush took
its counts is not reported to have gone. -/
def NeverGoes (before acts : List Act) (s : State) : Prop :=
  ∀ more u, Machine.run step s more = some u → ∃ lane,
    ¬ letIn lane (Machine.transitions step .new before) <+:
      went lane (Machine.transitions step .new (acts ++ more))

/-- Of the frames that a flush counted in a lane, one has not gone and is not left. -/
def LostOne (s : State) (past : List (State × Act × State)) (wanted wantedControl : ℕ) : Prop :=
  (went .message past).length + (s.left .message).length < wanted ∨
    (went .control past).length + (s.left .control).length < wantedControl

theorem lostOne_iff {past : List (State × Act × State)} {s₀ : State} :
    LostOne s past s₀.queue.sent.taken s₀.queue.controlSent.taken ↔
      ∃ lane, (went lane past).length + (s.left lane).length < (s₀.queue.of lane).taken := by
  constructor
  · rintro (hmessage | hcontrol)
    · exact ⟨.message, hmessage⟩
    · exact ⟨.control, hcontrol⟩
  · rintro ⟨_ | _, hlane⟩
    · exact .inl hlane
    · exact .inr hlane

/-- **A frame that was let in never goes exactly where one of those counted is lost.** -/
theorem neverGoes_iff {before later : List Act} {s₀ : State}
    (hbefore : Machine.run step .new before = some s₀)
    (hrun : Machine.run step .new (before ++ later) = some s) :
    NeverGoes before (before ++ later) s ↔
      LostOne s (Machine.transitions step .new (before ++ later)) s₀.queue.sent.taken
        s₀.queue.controlSent.taken := by
  rw [lostOne_iff]
  have hordered := ordered_of_run hrun
  have hcounted : ∀ lane, (s₀.queue.of lane).taken =
      (letIn lane (Machine.transitions step .new before)).length := fun lane =>
    ((ordered_of_run hbefore).lanes lane).taken_eq
  have hletIn : ∀ lane (more : List Act), letIn lane (Machine.transitions step .new before) <+:
      letIn lane (Machine.transitions step .new (before ++ more)) := fun lane more => by
    rw [Machine.transitions_append hbefore, letIn_append]
    exact List.prefix_append _ _
  have hwent : ∀ lane (more : List Act), went lane (Machine.transitions step .new (before ++ later ++ more)) =
      went lane (Machine.transitions step .new (before ++ later)) ++
        went lane (Machine.transitions step s more) := fun lane more => by
    rw [Machine.transitions_append hrun]
    exact List.flatMap_append
  constructor
  · intro hnever
    by_contra! hleft
    obtain ⟨more, u, hmore, hgoes⟩ := exists_goes s
    obtain ⟨lane, hlane⟩ := hnever more u hmore
    have horder := (ordered_of_run (Machine.run_append_eq_some.2 ⟨s, hrun, hmore⟩)).lanes lane
    have hall := horder.went_prefix
    rw [List.append_assoc] at hlane hall
    refine hlane (List.prefix_of_prefix_length_le (hletIn lane _) hall ?_)
    rw [← List.append_assoc, hwent, hgoes, List.length_append, ← hcounted]
    exact hleft lane
  · rintro ⟨lane, hlost⟩ more u hmore
    refine ⟨lane, fun hprefix => ?_⟩
    have hlong := hprefix.length_le
    rw [hwent, List.length_append, ← hcounted] at hlong
    -- Something was thrown away, so that the queue is closed and nothing more is let in.
    have hending : Ending s := by
      intro hworking
      by_contra hopen
      obtain ⟨thrown, hthrown, hlines⟩ := (hordered.lanes lane).lines hworking
      rw [hthrown (by simpa using hopen), List.append_nil, List.append_assoc,
        ← left_of_working hworking] at hlines
      have hless := (hletIn lane later).length_le
      rw [hlines, List.length_append, ← hcounted] at hless
      omega
    have := hending.went_le hmore lane
    omega

/-- A turn of a flush is nothing to the frames that went or are left. -/
theorem lostOne_turn_flush {past : List (State × Act × State)} {act : Act} (hact : act.ofCaller)
    (name wanted wantedControl : ℕ) (late : Bool) {counted countedControl : ℕ} :
    LostOne (s.turn name (.flush wanted wantedControl) late)
        (past ++ [(s, act, s.turn name (.flush wanted wantedControl) late)]) counted countedControl ↔
      LostOne s past counted countedControl := by
  have hreported : ∀ lane, reported lane s act = [] := fun lane => by cases act <;> first | rfl | cases hact
  rw [LostOne, went_concat, went_concat, hreported, hreported, List.append_nil, List.append_nil]
  rfl

/-- **When a flush that says gone is right.**  In any interleaving, where a flush that waits, or one that
does not, is answered `Gone`: in every continuation a frame let in before it took its counts is not
reported to have gone, exactly where one of those counted is lost at that time: it has not gone, the
writer does not hold it, and it is in no lane of a writer in its loop. -/
theorem gone_iff {acts : List Act} (hrun : Machine.run step .new acts = some s) (name : ℕ)
    (late : Bool) :
    (∀ wanted wantedControl t, s.calls name = some (.flush wanted wantedControl) →
      ((Call.flush wanted wantedControl).turn s.queue late).1 = .refused .gone →
      step s (.wake name late) = some t →
      ∃ before made later s₀, acts = before ++ .flush name made :: later ∧
        Machine.run step .new before = some s₀ ∧ wanted = s₀.queue.sent.taken ∧
        wantedControl = s₀.queue.controlSent.taken ∧
        (NeverGoes before (acts ++ [.wake name late]) t ↔
          LostOne s (Machine.transitions step .new acts) wanted wantedControl)) ∧
    (∀ t, s.calls name = none →
      ((Call.flush s.queue.sent.taken s.queue.controlSent.taken).turn s.queue late).1 =
        .refused .gone →
      step s (.flush name late) = some t →
      (NeverGoes acts (acts ++ [.flush name late]) t ↔
        LostOne s (Machine.transitions step .new acts) s.queue.sent.taken
          s.queue.controlSent.taken)) := by
  have hlast : ∀ act t, step s act = some t → Machine.run step .new (acts ++ [act]) = some t ∧
      Machine.transitions step .new (acts ++ [act]) =
        Machine.transitions step .new acts ++ [(s, act, t)] := fun act t hstep => by
    refine ⟨Machine.run_append_eq_some.2 ⟨s, hrun, Machine.run_cons_eq_some.2 ⟨t, hstep, rfl⟩⟩, ?_⟩
    rw [Machine.transitions_append hrun, Machine.transitions_cons hstep, Machine.transitions_nil]
  refine ⟨fun wanted wantedControl t hcall _ hstep => ?_, fun t hname _ hstep => ?_⟩
  · obtain ⟨before, made, later, s₀, rfl, hbefore, -, rfl, rfl⟩ := flush_of_call hrun hcall
    obtain ⟨hrun', htransitions⟩ := hlast _ t hstep
    refine ⟨before, made, later, s₀, rfl, hbefore, rfl, rfl, ?_⟩
    rw [List.append_assoc] at hrun' htransitions ⊢
    rw [neverGoes_iff hbefore hrun', htransitions]
    rw [step, hcall] at hstep
    cases hstep
    exact lostOne_turn_flush rfl _ _ _ _
  · obtain ⟨hrun', htransitions⟩ := hlast _ t hstep
    rw [neverGoes_iff hrun hrun', htransitions]
    rw [step, if_pos hname] at hstep
    cases hstep
    exact lostOne_turn_flush rfl _ _ _ _

/-- A flush waits on the frame in hand, the queue is shut, and it says gone: and that frame goes. -/
theorem gone_and_went :
    let before : List Act := [.putMessage 0 [7] false, .take]
    let acts : List Act := before ++ [.flush 1 false, .shut]
    ∃ s t, Machine.run step .new acts = some s ∧ s.calls 1 = some (.flush 1 0) ∧
      ((Call.flush 1 0).turn s.queue false).1 = .refused .gone ∧ step s (.wake 1 false) = some t ∧
      ¬ NeverGoes before (acts ++ [.wake 1 false]) t ∧
      ∃ u, Machine.run step t [.done true] = some u ∧ u.queue.sent.wrote = 1 ∧
        u.queue.sent.lost = 0 := by
  intro before acts
  refine ⟨_, _, rfl, rfl, rfl, rfl, fun hnever => ?_, _, rfl, rfl, rfl⟩
  obtain ⟨lane, hlane⟩ := hnever [.done true] _ rfl
  cases lane
  · exact hlane ⟨[], rfl⟩
  · exact hlane ⟨[], rfl⟩

/-- The same flush, where a message behind the frame in hand is thrown away. -/
theorem gone_iff_of_two :
    let before : List Act := [.putMessage 0 [7] false, .putMessage 2 [8] false, .take]
    let acts : List Act := before ++ [.flush 1 false, .shut]
    ∃ s t, Machine.run step .new acts = some s ∧ step s (.wake 1 false) = some t ∧
      ∃ before made later s₀, acts = before ++ .flush 1 made :: later ∧
        Machine.run step .new before = some s₀ ∧ 2 = s₀.queue.sent.taken ∧
        0 = s₀.queue.controlSent.taken ∧
        (NeverGoes before (acts ++ [.wake 1 false]) t ↔
          LostOne s (Machine.transitions step .new acts) 2 0) := by
  intro before acts
  obtain ⟨s, t, hrun, hcall, hgone, hstep⟩ : ∃ s t, Machine.run step .new acts = some s ∧
      s.calls 1 = some (.flush 2 0) ∧
      ((Call.flush 2 0).turn s.queue false).1 = .refused .gone ∧ step s (.wake 1 false) = some t :=
    ⟨_, _, rfl, rfl, rfl, rfl⟩
  exact ⟨s, t, hrun, hstep, (gone_iff hrun 1 false).1 2 0 t hcall hgone hstep⟩

end LcmBus.Outbox
