import LcmBus.Client.OutboxCounts

/-!
# The order of an outbox, and its flush

The frames of a lane go in the order they were let in, and none behind one that did not go.

* `entered` and `reported`: the frame a step lets into a lane, and the one the writer reports to have
  gone; `letIn` and `went` are those of a past;
* `InOrder` and `InOrder.step`: what was let into a lane is what went, what the writer holds, and what
  waits;
* `flush_of_call`: the counts of a flush are those of the state it was made in;
* `flushed_went`: a flush that is answered `Ok` waited for every frame let in before it.
-/

namespace LcmBus.Outbox

/-! ### The past of a lane -/

/-- The frame a step lets into a lane, which goes to its end. -/
def entered (lane : Lane) (s t : State) : List Bytes :=
  if (s.queue.of lane).taken < (t.queue.of lane).taken then (t.queue.frames lane).getLast?.toList
  else []

/-- The frame of a lane in the hand of the writer. -/
def State.held (s : State) (lane : Lane) : List Bytes :=
  match s.writer with
  | .holding held frame => if held = lane then [frame] else []
  | _ => []

/-- The frame of a lane that the writer reports to have gone. -/
def reported (lane : Lane) (s : State) : Act → List Bytes
  | .done true => s.held lane
  | _ => []

/-- The frames let into a lane in all of a past. -/
def letIn (lane : Lane) (past : List (State × Act × State)) : List Bytes :=
  past.flatMap fun (s, _, t) => entered lane s t

/-- The frames of a lane reported to have gone. -/
def went (lane : Lane) (past : List (State × Act × State)) : List Bytes :=
  past.flatMap fun (s, act, _) => reported lane s act

theorem letIn_append (lane : Lane) (past later : List (State × Act × State)) :
    letIn lane (past ++ later) = letIn lane past ++ letIn lane later := List.flatMap_append

@[simp] theorem letIn_concat (lane : Lane) (past : List (State × Act × State)) (s t : State)
    (act : Act) : letIn lane (past ++ [(s, act, t)]) = letIn lane past ++ entered lane s t := by
  simp [letIn]

@[simp] theorem went_concat (lane : Lane) (past : List (State × Act × State)) (s t : State)
    (act : Act) : went lane (past ++ [(s, act, t)]) = went lane past ++ reported lane s act := by
  simp [went]

/-! ### What holds of it -/

/-- The writer is in its loop. -/
def Writer.working : Writer → Bool
  | .idle | .holding _ _ => true
  | _ => false

/-- What holds of one lane, in every state: what was let in is what went, what the writer holds and
what waits, and behind those what a `shut` threw away.  A writer that has stopped reports no more. -/
structure InOrder (s : State) (lane : Lane) (letIn went : List Bytes) : Prop where
  taken_eq : (s.queue.of lane).taken = letIn.length
  wrote_le : (s.queue.of lane).wrote ≤ went.length
  went_prefix : went <+: letIn
  lines : s.writer.working = true → ∃ thrown, (s.queue.isOpen = true → thrown = []) ∧
    letIn = went ++ s.held lane ++ s.queue.frames lane ++ thrown

/-- And of the hand of the writer: where it is not taken away, it is that of its frame. -/
def HandAgrees (s : State) : Prop :=
  ∀ lane frame, s.writer = .holding lane frame →
    s.queue.inHand = none ∨ s.queue.inHand = some lane

theorem entered_of_taken_eq {lane : Lane} {s t : State}
    (h : (t.queue.of lane).taken = (s.queue.of lane).taken) : entered lane s t = [] :=
  if_neg (by omega)

theorem entered_of_taken_lt {lane : Lane} {s t : State} {frames : List Bytes} {frame : Bytes}
    (h : (s.queue.of lane).taken < (t.queue.of lane).taken)
    (hframes : t.queue.frames lane = frames ++ [frame]) : entered lane s t = [frame] := by
  rw [entered, if_pos h, hframes]
  simp

namespace Queue

variable (q : Queue) (lane : Lane)

/-- To be done with a frame that went counts it as written. -/
theorem done_wrote (went : Bool) : ((q.done went).of lane).wrote = (q.of lane).wrote +
    if went = true ∧ q.inHand = some lane then 1 else 0 := by
  unfold Queue.done
  split
  · rename_i hnone
    simp [hnone]
  · rename_i held hheld
    cases held <;> cases lane <;> cases went <;> simp [of, setOf, hheld]

theorem done_taken (went : Bool) : ((q.done went).of lane).taken = (q.of lane).taken := by
  obtain ⟨-, -, -, htaken, hcontrolTaken⟩ := q.done_lines went
  cases lane
  · exact htaken
  · exact hcontrolTaken

theorem done_frames (went : Bool) : (q.done went).frames lane = q.frames lane := by
  obtain ⟨hmessages, hcontrol, -⟩ := q.done_lines went
  cases lane
  · exact hmessages
  · exact hcontrol

theorem shut_taken : (q.shut.of lane).taken = (q.of lane).taken := by cases lane <;> rfl

theorem shut_wrote : (q.shut.of lane).wrote = (q.of lane).wrote := by cases lane <;> rfl

theorem shut_frames : q.shut.frames lane = [] := by cases lane <;> rfl

/-- A frame that is taken was the first of its lane, and no other lane changes. -/
theorem take_frames {held : Lane} {frame : Bytes} {q' : Queue}
    (h : q.take = (some (held, frame), q')) :
    q.frames held = frame :: q'.frames held ∧ (∀ lane ≠ held, q'.frames lane = q.frames lane) ∧
      q'.inHand = some held := by
  unfold Queue.take at h
  split at h
  · rename_i hcontrol
    cases h
    refine ⟨hcontrol, fun lane hlane => ?_, rfl⟩
    cases lane
    · rfl
    · exact absurd rfl hlane
  · rename_i hmessages
    cases h
    refine ⟨hmessages, fun lane hlane => ?_, rfl⟩
    cases lane
    · exact absurd rfl hlane
    · rfl
  · cases h

end Queue

/-- What a turn of a call does to a lane: it lets a frame in at its end where the queue is open, or
it does nothing. -/
theorem Call.turn_lane (call : Call) (q : Queue) (late : Bool) (lane : Lane) :
    ((call.turn q late).2.of lane).wrote = (q.of lane).wrote ∧
    ((((call.turn q late).2.of lane).taken = (q.of lane).taken ∧
        (call.turn q late).2.frames lane = q.frames lane) ∨
      ∃ frame, q.isOpen = true ∧ ((call.turn q late).2.of lane).taken = (q.of lane).taken + 1 ∧
        (call.turn q late).2.frames lane = q.frames lane ++ [frame]) := by
  obtain ⟨ticket, frame, rfl, hopen, -, -, hturn⟩ | ⟨frame, rfl, hopen, -, hturn⟩ |
    ⟨line, hqueue, -⟩ := call.turn_cases q late
  · rw [hturn]
    cases lane
    · exact ⟨rfl, .inr ⟨frame, hopen, rfl, rfl⟩⟩
    · exact ⟨rfl, .inl ⟨rfl, rfl⟩⟩
  · rw [hturn]
    cases lane
    · exact ⟨rfl, .inl ⟨rfl, rfl⟩⟩
    · exact ⟨rfl, .inr ⟨frame, hopen, rfl, rfl⟩⟩
  · rw [hqueue]
    cases lane <;> exact ⟨rfl, .inl ⟨rfl, rfl⟩⟩

variable {s t : State}

/-! ### Who lets a frame in -/

/-- The frame of a call. -/
def Call.frames : Call → List Bytes
  | .message _ frame | .control frame => [frame]
  | .flush .. => []

/-- A turn lets the frame of its call into the lane of it, where it is through. -/
theorem entered_turn (s : State) (name : ℕ) (call : Call) (late : Bool) (lane : Lane) :
    entered lane s (s.turn name call late) =
      if (call.turn s.queue late).1 = .through ∧ call.lane = some lane then call.frames else [] := by
  obtain ⟨ticket, frame, rfl, -, -, -, hturn⟩ | ⟨frame, rfl, -, -, hturn⟩ | ⟨line, hqueue, hflush⟩ :=
    call.turn_cases s.queue late
  · rw [hturn]
    cases lane
    · have hframes : (s.turn name (.message ticket frame) late).queue.frames .message =
          s.queue.messages ++ [frame] := by simp [State.turn_queue, hturn, Queue.frames]
      exact entered_of_taken_lt (by simp [State.turn_queue, hturn, Queue.of]) hframes
    · exact entered_of_taken_eq (by simp [State.turn_queue, hturn, Queue.of])
  · rw [hturn]
    cases lane
    · exact entered_of_taken_eq (by simp [State.turn_queue, hturn, Queue.of])
    · have hframes : (s.turn name (.control frame) late).queue.frames .control =
          s.queue.control ++ [frame] := by simp [State.turn_queue, hturn, Queue.frames]
      exact entered_of_taken_lt (by simp [State.turn_queue, hturn, Queue.of]) hframes
  · rw [entered_of_taken_eq (by rw [State.turn_queue, hqueue]; cases lane <;> rfl), if_neg]
    rintro ⟨hthrough, hlane⟩
    obtain ⟨wanted, wantedControl, rfl⟩ := hflush hthrough
    cases hlane

/-- A take is in no count. -/
theorem Queue.take_of {q queue : Queue} {held : Lane} {frame : Bytes}
    (htake : q.take = (some (held, frame), queue)) (lane : Lane) : queue.of lane = q.of lane := by
  rcases q.take_cases with ⟨hnone, -⟩ | ⟨_, _, -, hsent, hcontrolSent, -⟩
  · rw [htake] at hnone
    cases hnone
  · rw [htake] at hsent hcontrolSent
    cases lane
    · exact hsent
    · exact hcontrolSent

/-! ### What a step does to a lane -/

namespace InOrder

variable {lane : Lane} {letIn went : List Bytes}

/-- A turn of a call lets a frame in behind the others, or leaves the lane as it is. -/
theorem turn (h : InOrder s lane letIn went) (name : ℕ) (call : Call) (late : Bool) :
    InOrder (s.turn name call late) lane (letIn ++ entered lane s (s.turn name call late)) went := by
  obtain ⟨hwrote, ⟨htaken, hframes⟩ | ⟨frame, hopen, htaken, hframes⟩⟩ :=
    call.turn_lane s.queue late lane
  · rw [entered_of_taken_eq htaken, List.append_nil]
    refine ⟨htaken.trans h.taken_eq, hwrote.le.trans h.wrote_le, h.went_prefix, fun hworking => ?_⟩
    obtain ⟨thrown, hthrown, hlines⟩ := h.lines hworking
    refine ⟨thrown, fun hopen => hthrown ?_, hlines.trans ?_⟩
    · rwa [State.turn_queue, call.turn_isOpen] at hopen
    · rw [State.turn_queue, hframes]
      rfl
  · have hentered : entered lane s (s.turn name call late) = [frame] :=
      entered_of_taken_lt (by rw [State.turn_queue, htaken]; omega) hframes
    rw [hentered]
    refine ⟨by simp [htaken, h.taken_eq], hwrote.le.trans h.wrote_le,
      h.went_prefix.trans (List.prefix_append _ _), fun hworking => ?_⟩
    obtain ⟨thrown, hthrown, hlines⟩ := h.lines hworking
    refine ⟨[], fun _ => rfl, ?_⟩
    rw [hlines, hthrown hopen, State.turn_queue, hframes]
    simp [State.held]

/-- The writer takes the first frame of a lane in its hand. -/
theorem take (h : InOrder s lane letIn went) (hidle : s.writer = .idle) {held : Lane} {frame : Bytes}
    {queue : Queue} (htake : s.queue.take = (some (held, frame), queue)) :
    InOrder { s with queue, writer := .holding held frame } lane letIn went := by
  obtain ⟨hfirst, hothers, -⟩ := s.queue.take_frames htake
  rcases s.queue.take_cases with ⟨hnone, -⟩ | ⟨_, _, -, -, -, hopen, -⟩
  · rw [htake] at hnone
    cases hnone
  rw [htake] at hopen
  have hof := Queue.take_of htake lane
  refine ⟨(congrArg Sent.taken hof).trans h.taken_eq, (congrArg Sent.wrote hof).le.trans h.wrote_le,
    h.went_prefix, fun _ => ?_⟩
  obtain ⟨thrown, hthrown, hlines⟩ := h.lines (by rw [hidle]; rfl)
  refine ⟨thrown, fun h => hthrown (hopen.symm.trans h), hlines.trans ?_⟩
  by_cases hlane : held = lane
  · subst hlane
    simp [State.held, hidle, hfirst]
  · simp [State.held, hidle, hlane, hothers lane (Ne.symm hlane)]

/-- The writer reports the frame it holds, and goes on where that went. -/
theorem done (h : InOrder s lane letIn went) (hhand : HandAgrees s) (ok : Bool) {held : Lane}
    {frame : Bytes} (hholding : s.writer = .holding held frame) :
    InOrder { s with queue := s.queue.done ok, writer := if ok then .idle else .stopped } lane letIn
      (went ++ reported lane s (.done ok)) := by
  have hwrote := s.queue.done_wrote lane ok
  obtain ⟨thrown, hthrown, hlines⟩ := h.lines (by rw [hholding]; rfl)
  cases ok with
  | false =>
    refine ⟨(s.queue.done_taken lane false).trans h.taken_eq, ?_, ?_, by simp [Writer.working]⟩
    · simpa [hwrote, reported] using h.wrote_le
    · simpa [reported] using h.went_prefix
  | true =>
    have hlines' : letIn = (went ++ reported lane s (.done true)) ++ (s.queue.done true).frames lane ++
        thrown := by rw [hlines, Queue.done_frames, reported]
    refine ⟨(s.queue.done_taken lane true).trans h.taken_eq, ?_, ?_, fun _ => ⟨thrown, fun hopen =>
      hthrown ?_, ?_⟩⟩
    · have hle := h.wrote_le
      simp only [hwrote, List.length_append, reported, State.held, hholding]
      rcases hhand held frame hholding with hnone | hsome
      · simp [hnone]
        omega
      · by_cases hlane : held = lane
        · simp [hsome, hlane, hle]
        · simp [hsome, hlane, hle]
    · rw [hlines', List.append_assoc]
      exact List.prefix_append _ _
    · rwa [← (s.queue.done_lines true).2.2.1]
    · simpa [State.held] using hlines'

/-- What waits is thrown away. -/
theorem shut (h : InOrder s lane letIn went) {writer : Writer}
    (hwriter : writer = s.writer ∨ writer.working = false) :
    InOrder { s with queue := s.queue.shut, writer } lane letIn went := by
  refine ⟨(s.queue.shut_taken lane).trans h.taken_eq, (s.queue.shut_wrote lane).le.trans h.wrote_le,
    h.went_prefix, fun hworking => ?_⟩
  rcases hwriter with rfl | hstopped
  · obtain ⟨thrown, -, hlines⟩ := h.lines hworking
    refine ⟨s.queue.frames lane ++ thrown, fun hopen => absurd hopen (by simp [Queue.shut]), ?_⟩
    rw [Queue.shut_frames, hlines]
    simp [State.held]
  · rw [hstopped] at hworking
    cases hworking

/-- The hand of the writer is in no lane. -/
theorem abandon (h : InOrder s lane letIn went) {writer : Writer}
    (hwriter : writer = s.writer ∨ writer.working = false) :
    InOrder { s with queue := s.queue.abandon, writer } lane letIn went := by
  rw [Queue.abandon_eq_done]
  refine ⟨(s.queue.done_taken lane false).trans h.taken_eq, ?_, h.went_prefix, fun hworking => ?_⟩
  · simpa [s.queue.done_wrote lane false] using h.wrote_le
  · rcases hwriter with rfl | hstopped
    · obtain ⟨thrown, hthrown, hlines⟩ := h.lines hworking
      refine ⟨thrown, fun hopen => hthrown ?_, ?_⟩
      · rwa [(s.queue.done_lines false).2.2.1] at hopen
      · rw [s.queue.done_frames lane false]
        exact hlines
    · rw [hstopped] at hworking
      cases hworking

end InOrder

/-! ### Every step, and every run -/

/-- A turn of a call is none of the hand. -/
theorem Call.turn_inHand (call : Call) (q : Queue) (late : Bool) :
    (call.turn q late).2.inHand = q.inHand := by
  rcases call.turn_cases q late with ⟨_, _, -, -, -, -, hturn⟩ | ⟨_, -, -, -, hturn⟩ | ⟨line, hqueue, -⟩
  · rw [hturn]
  · rw [hturn]
  · rw [hqueue]

/-- What holds of an outbox and of all that went through it. -/
structure Ordered (s : State) (past : List (State × Act × State)) : Prop where
  hand : HandAgrees s
  lanes : ∀ lane, InOrder s lane (letIn lane past) (went lane past)

theorem ordered_new : Ordered .new [] where
  hand := by rintro lane frame ⟨⟩
  lanes lane := by
    cases lane <;> exact ⟨rfl, le_rfl, List.prefix_rfl, fun _ => ⟨[], fun _ => rfl, rfl⟩⟩

/-- A take that finds a frame puts it in the hand of the writer. -/
theorem step_take_frame {s t : State} (hstep : step s .take = some t) :
    s.writer = .idle ∧ (t = s ∨ ∃ held frame queue, s.queue.take = (some (held, frame), queue) ∧
      t = { s with queue, writer := .holding held frame }) := by
  obtain ⟨hidle, hsame | ⟨held, frame, htaken, -⟩⟩ := step_take hstep
  · exact ⟨hidle, .inl hsame⟩
  · refine ⟨hidle, .inr ⟨held, frame, s.queue.take.2, ?_, htaken⟩⟩
    simp only [step, hidle] at hstep
    rcases htake : s.queue.take with ⟨_ | ⟨held', frame'⟩, queue⟩ <;> rw [htake] at hstep htaken <;>
      cases hstep <;> cases htaken
    rfl

/-- The writer, and a `shut` or an `abandon`, let no frame in, and leave the callers where they are. -/
theorem entered_of_not_ofCaller {act : Act} (hact : act.ofCaller = false)
    (hstep : step s act = some t) : t.calls = s.calls ∧ ∀ lane, entered lane s t = [] := by
  suffices h : t.calls = s.calls ∧ ∀ lane, (t.queue.of lane).taken = (s.queue.of lane).taken from
    ⟨h.1, fun lane => entered_of_taken_eq (h.2 lane)⟩
  cases act with
  | putMessage | putControl | flush | wake => cases hact
  | take =>
    obtain ⟨-, rfl | ⟨held, frame, queue, htake, rfl⟩⟩ := step_take_frame hstep
    · exact ⟨rfl, fun _ => rfl⟩
    · exact ⟨rfl, fun lane => congrArg Sent.taken (Queue.take_of htake lane)⟩
  | done ok =>
    simp only [step] at hstep
    split at hstep <;> cases hstep
    exact ⟨rfl, fun lane => s.queue.done_taken lane ok⟩
  | shut =>
    cases hstep
    exact ⟨rfl, s.queue.shut_taken⟩
  | abandon =>
    cases hstep
    exact ⟨rfl, fun lane => s.queue.done_taken lane false⟩
  | exitShut =>
    simp only [step] at hstep
    split at hstep <;> cases hstep
    exact ⟨rfl, s.queue.shut_taken⟩
  | exitAbandon =>
    simp only [step] at hstep
    split at hstep <;> cases hstep
    exact ⟨rfl, fun lane => s.queue.done_taken lane false⟩

theorem HandAgrees.step (h : HandAgrees s) {act : Act} (hstep : Outbox.step s act = some t) :
    HandAgrees t := by
  intro lane frame hholding
  cases act with
  | putMessage | putControl | flush | wake =>
    obtain ⟨line, nextTicket, name, call, late, rfl⟩ := step_ofCaller rfl hstep
    rw [State.turn_queue, call.turn_inHand]
    exact h lane frame hholding
  | take =>
    obtain ⟨hidle, rfl | ⟨held, frame, queue, htake, rfl⟩⟩ := step_take_frame hstep
    · exact h lane frame hholding
    · cases hholding
      exact .inr (s.queue.take_frames htake).2.2
  | done ok =>
    simp only [Outbox.step] at hstep
    split at hstep <;> cases hstep
    cases ok <;> cases hholding
  | shut =>
    cases hstep
    exact h lane frame hholding
  | abandon =>
    cases hstep
    exact .inl (s.queue.done_inHand false)
  | exitShut | exitAbandon =>
    simp only [Outbox.step] at hstep
    split at hstep <;> cases hstep
    cases hholding

/-- **No step of any caller takes a frame out of its order.** -/
theorem InOrder.step {lane : Lane} {came gone : List Bytes} (h : InOrder s lane came gone)
    (hhand : HandAgrees s) {act : Act} (hstep : Outbox.step s act = some t) :
    InOrder t lane (came ++ entered lane s t) (gone ++ reported lane s act) := by
  have hnone : (∀ ok, act ≠ .done ok) → reported lane s act = [] := fun hact => by
    cases act <;> simp_all [reported]
  cases hcaller : act.ofCaller with
  | true =>
    obtain ⟨line, nextTicket, name, call, late, rfl⟩ := step_ofCaller hcaller hstep
    -- A place in the line of tickets is none in a lane.
    have hline : InOrder { s with queue := { s.queue with line, nextTicket } } lane came gone := by
      cases lane <;> exact ⟨h.taken_eq, h.wrote_le, h.went_prefix, h.lines⟩
    rw [hnone (by rintro ok rfl; cases hcaller), List.append_nil]
    cases lane <;> exact hline.turn name call late
  | false =>
    rw [(entered_of_not_ofCaller hcaller hstep).2 lane, List.append_nil]
    cases act with
    | putMessage | putControl | flush | wake => cases hcaller
    | take =>
      rw [hnone (by simp), List.append_nil]
      obtain ⟨hidle, rfl | ⟨held, frame, queue, htake, rfl⟩⟩ := step_take_frame hstep
      · exact h
      · exact h.take hidle htake
    | done ok =>
      simp only [Outbox.step] at hstep
      split at hstep
      · rename_i held frame hholding
        cases hstep
        exact h.done hhand ok hholding
      · cases hstep
    | shut =>
      cases hstep
      rw [hnone (by simp), List.append_nil]
      exact h.shut (.inl rfl)
    | abandon =>
      cases hstep
      rw [hnone (by simp), List.append_nil]
      exact h.abandon (.inl rfl)
    | exitShut =>
      simp only [Outbox.step] at hstep
      split at hstep <;> cases hstep
      rw [hnone (by simp), List.append_nil]
      exact h.shut (.inr rfl)
    | exitAbandon =>
      simp only [Outbox.step] at hstep
      split at hstep <;> cases hstep
      rw [hnone (by simp), List.append_nil]
      exact h.abandon (.inr rfl)

/-- And so what holds of an outbox and its past is kept. -/
theorem Ordered.step {past : List (State × Act × State)} (h : Ordered s past) {act : Act}
    (hstep : Outbox.step s act = some t) : Ordered t (past ++ [(s, act, t)]) := by
  refine ⟨h.hand.step hstep, fun lane => ?_⟩
  rw [letIn_concat, went_concat]
  exact (h.lanes lane).step h.hand hstep

/-- Behind every run each lane is in order. -/
theorem ordered_of_run {acts : List Act} {s : State} (hrun : Machine.run step .new acts = some s) :
    Ordered s (Machine.transitions step .new acts) := by
  have h := Machine.run_history (P := Ordered) (fun _ _ _ _ h hstep => h.step hstep) ordered_new hrun
  rwa [List.nil_append] at h

/-- A flush that finds its counts written found every frame let in before it reported. -/
theorem letIn_prefix_of_flushTurn {before later : List Act} {s₀ s : State}
    (hbefore : Machine.run step .new before = some s₀) (hlater : Machine.run step s₀ later = some s)
    {late : Bool} (hok : s.queue.flushTurn s₀.queue.sent.taken s₀.queue.controlSent.taken late =
      .through) (lane : Lane) :
    letIn lane (Machine.transitions step .new before) <+:
      went lane (Machine.transitions step .new (before ++ later)) := by
  have hlane := (ordered_of_run hbefore).lanes lane
  have hlane' := (ordered_of_run (Machine.run_append_eq_some.2 ⟨s₀, hbefore, hlater⟩)).lanes lane
  have hwrote : (s₀.queue.of lane).taken ≤ (s.queue.of lane).wrote := by
    unfold Queue.flushTurn at hok
    split_ifs at hok with hcounts
    cases lane
    · exact hcounts.1
    · exact hcounts.2
  refine List.prefix_of_prefix_length_le ?_ hlane'.went_prefix
    (hlane.taken_eq.ge.trans (hwrote.trans hlane'.wrote_le))
  rw [Machine.transitions_append hbefore, letIn_append]
  exact List.prefix_append _ _

/-- A call that waits has waited, or it was made in this step, with the counts of the queue where it
is a flush. -/
theorem calls_step {s t : State} {act : Act} (hstep : step s act = some t) {name : ℕ}
    {wanted wantedControl : ℕ} (hcall : t.calls name = some (.flush wanted wantedControl)) :
    s.calls name = some (.flush wanted wantedControl) ∨
      (∃ late, act = .flush name late) ∧ wanted = s.queue.sent.taken ∧
        wantedControl = s.queue.controlSent.taken := by
  have hturn : ∀ (s' : State) (other : ℕ) (call : Call) (late : Bool),
      (s'.turn other call late).calls name = some (.flush wanted wantedControl) →
      s'.calls name = some (.flush wanted wantedControl) ∨
        other = name ∧ call = .flush wanted wantedControl := fun s' other call late h => by
    simp only [State.turn, Function.update_apply] at h
    split_ifs at h with hname hwaits
    · exact .inr ⟨hname.symm, Option.some.inj h⟩
    · exact .inl h
  cases act with
  | putMessage other frame late =>
    simp only [step] at hstep
    split_ifs at hstep
    cases hstep
    rcases hturn _ _ _ _ hcall with h | ⟨-, h⟩
    · exact .inl h
    · cases h
  | putControl other frame late =>
    simp only [step] at hstep
    split_ifs at hstep
    cases hstep
    rcases hturn _ _ _ _ hcall with h | ⟨-, h⟩
    · exact .inl h
    · cases h
  | flush other late =>
    simp only [step] at hstep
    split_ifs at hstep
    cases hstep
    rcases hturn _ _ _ _ hcall with h | ⟨rfl, h⟩
    · exact .inl h
    · cases h
      exact .inr ⟨⟨late, rfl⟩, rfl, rfl⟩
  | wake other late =>
    obtain ⟨call, hwaits, rfl⟩ := Option.map_eq_some_iff.1 hstep
    rcases hturn _ _ _ _ hcall with h | ⟨rfl, rfl⟩
    · exact .inl h
    · exact .inl hwaits
  | take | done | shut | abandon | exitShut | exitAbandon =>
    rw [(entered_of_not_ofCaller rfl hstep).1] at hcall
    exact .inl hcall

/-- The counts of a flush that waits are those of the state it was made in. -/
theorem flush_of_call {acts : List Act} {s : State} (hrun : Machine.run step .new acts = some s)
    {name wanted wantedControl : ℕ} (hcall : s.calls name = some (.flush wanted wantedControl)) :
    ∃ before made later s₀, acts = before ++ .flush name made :: later ∧
      Machine.run step .new before = some s₀ ∧
      Machine.run step s₀ (.flush name made :: later) = some s ∧
      wanted = s₀.queue.sent.taken ∧ wantedControl = s₀.queue.controlSent.taken := by
  induction acts using List.reverseRecOn generalizing s with
  | nil => cases hrun; cases hcall
  | append_singleton acts act ih =>
    obtain ⟨u, hu, hlast⟩ := Machine.run_append_eq_some.1 hrun
    obtain ⟨t, hstep, hnil⟩ := Machine.run_cons_eq_some.1 hlast
    cases hnil
    rcases calls_step hstep hcall with hwaits | ⟨⟨made, rfl⟩, hwanted, hwantedControl⟩
    · obtain ⟨before, made, later, s₀, rfl, hbefore, hlater, hcounts⟩ := ih hu hwaits
      refine ⟨before, made, later ++ [act], s₀, by simp, hbefore, ?_, hcounts⟩
      rw [← List.cons_append]
      exact Machine.run_append_eq_some.2 ⟨u, hlater, hlast⟩
    · exact ⟨acts, made, [], u, rfl, hu, hlast, hwanted, hwantedControl⟩

/-- **A flush never says yes about a frame that did not go.**  In any interleaving, where a flush is
answered `Ok`, whether it waited or not, each frame that was let into a lane before it took its counts
was reported to have gone.  A flush that waited took its counts where it was made, and they are what
the two lanes had taken by then. -/
theorem flushed_went {acts : List Act} {s : State} (hrun : Machine.run step .new acts = some s)
    (late : Bool) :
    (∀ name wanted wantedControl, s.calls name = some (.flush wanted wantedControl) →
      ((Call.flush wanted wantedControl).turn s.queue late).1 = .through →
      ∃ before made later s₀, acts = before ++ .flush name made :: later ∧
        Machine.run step .new before = some s₀ ∧
        wanted = s₀.queue.sent.taken ∧ wantedControl = s₀.queue.controlSent.taken ∧
        ∀ lane, letIn lane (Machine.transitions step .new before) <+:
          went lane (Machine.transitions step .new acts)) ∧
    (((Call.flush s.queue.sent.taken s.queue.controlSent.taken).turn s.queue late).1 = .through →
      ∀ lane, letIn lane (Machine.transitions step .new acts) <+:
        went lane (Machine.transitions step .new acts)) := by
  constructor
  · intro name wanted wantedControl hcall hok
    obtain ⟨before, made, later, s₀, rfl, hbefore, hlater, rfl, rfl⟩ := flush_of_call hrun hcall
    exact ⟨before, made, later, s₀, rfl, hbefore, rfl, rfl,
      letIn_prefix_of_flushTurn hbefore hlater hok⟩
  · intro hok lane
    have hprefix := letIn_prefix_of_flushTurn hrun (Machine.run_nil step s) hok lane
    rwa [List.append_nil] at hprefix

/-- A flush that waits on a message, while a subscription goes in front of it. -/
theorem flushed_went_of_two :
    let acts : List Act := [.putMessage 0 [7] false, .take, .putControl 1 [8] false, .flush 2 false,
      .done true, .take, .done true]
    ∃ before made later s₀, acts = before ++ .flush 2 made :: later ∧
      Machine.run step .new before = some s₀ ∧
      1 = s₀.queue.sent.taken ∧ 1 = s₀.queue.controlSent.taken ∧
      ∀ lane, letIn lane (Machine.transitions step .new before) <+:
        went lane (Machine.transitions step .new acts) := by
  intro acts
  obtain ⟨s, hrun, hcall, hok⟩ : ∃ s, Machine.run step .new acts = some s ∧
      s.calls 2 = some (.flush 1 1) ∧ ((Call.flush 1 1).turn s.queue false).1 = .through :=
    ⟨_, rfl, rfl, rfl⟩
  exact (flushed_went hrun false).1 2 1 1 hcall hok

end LcmBus.Outbox
