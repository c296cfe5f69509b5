import LcmBus.Client.Outbox

/-!
# The counts of an outbox

A frame let into a line is written, or lost, or still there: waiting in its line, or in the hand of
the writer.  No interleaving of the callers loses one uncounted or counts one twice.

* `Queue.Balanced`: what the counts of a queue say of its frames;
* `Call.turn_cases`: what one turn of a call does to the queue;
* `Counted` and `Counted.step`: what one step of any caller keeps;
* `counts_of_run`: the counts behind every run, and what they come to once the writer is gone.
-/

namespace LcmBus.Outbox

/-- What was let into each line was written, or lost, or is still there. -/
def Queue.Balanced (q : Queue) : Prop :=
  ∀ lane, (q.of lane).taken = (q.of lane).wrote + (q.of lane).lost + (q.frames lane).length +
    if q.inHand = some lane then 1 else 0

namespace Queue

variable {q : Queue}

theorem balanced_new : new.Balanced := by
  intro lane
  cases lane <;> rfl

/-- Only the counts, the lines and the hand are in the balance. -/
theorem Balanced.congr {q' : Queue} (h : q.Balanced) (hsent : q'.sent = q.sent)
    (hcontrol : q'.controlSent = q.controlSent) (hmessages : q'.messages = q.messages)
    (hframes : q'.control = q.control) (hhand : q'.inHand = q.inHand) : q'.Balanced := by
  intro lane
  have := h lane
  cases lane <;> simpa [of, frames, hsent, hcontrol, hmessages, hframes, hhand] using this

/-- A message let in is counted as it goes into its line. -/
theorem Balanced.letMessage (h : q.Balanced) (frame : Bytes) {line : List ℕ} {waiting : ℕ} :
    { q with line, waiting, messages := q.messages ++ [frame]
             sent := { q.sent with taken := q.sent.taken + 1 } }.Balanced := by
  intro lane
  have hlane := h lane
  cases lane <;> simp_all [of, frames]
  omega

/-- And so is a subscription. -/
theorem Balanced.letControl (h : q.Balanced) (frame : Bytes) {controlWaiting : ℕ} :
    { q with controlWaiting, control := q.control ++ [frame]
             controlSent := { q.controlSent with taken := q.controlSent.taken + 1 } }.Balanced := by
  intro lane
  have hlane := h lane
  cases lane <;> simp_all [of, frames]
  omega

/-- A taken frame goes from its line into the hand of the writer. -/
theorem Balanced.take (h : q.Balanced) (hhand : q.inHand = none) : q.take.2.Balanced := by
  intro lane
  have hlane := h lane
  unfold Queue.take
  split
  · rename_i frame control _ hcontrol
    cases lane <;> simp_all [of, frames]
    omega
  · rename_i frame messages hcontrol hmessages
    cases lane <;> simp_all [of, frames]
    omega
  · exact hlane

/-- A take changes no count, and whether the queue is open no more; it takes where there is a
frame. -/
theorem take_cases (q : Queue) :
    (q.take = (none, q) ∧ q.control = [] ∧ q.messages = []) ∨
    (∃ lane frame, q.take.1 = some (lane, frame) ∧ q.take.2.sent = q.sent ∧
      q.take.2.controlSent = q.controlSent ∧ q.take.2.isOpen = q.isOpen ∧
      ¬ (q.messages = [] ∧ q.control = [])) := by
  unfold Queue.take
  split
  · rename_i frame control _ hcontrol
    exact .inr ⟨_, _, rfl, rfl, rfl, rfl, by simp [hcontrol]⟩
  · rename_i frame messages hcontrol hmessages
    exact .inr ⟨_, _, rfl, rfl, rfl, rfl, by simp [hmessages]⟩
  · rename_i hcontrol hmessages
    exact .inl ⟨rfl, hcontrol, hmessages⟩

/-- To be done with a frame says nothing of the lines, and lets nothing in. -/
theorem done_lines (q : Queue) (went : Bool) :
    (q.done went).messages = q.messages ∧ (q.done went).control = q.control ∧
      (q.done went).isOpen = q.isOpen ∧ (q.done went).sent.taken = q.sent.taken ∧
      (q.done went).controlSent.taken = q.controlSent.taken := by
  unfold Queue.done
  split
  · exact ⟨rfl, rfl, rfl, rfl, rfl⟩
  · rename_i lane _
    cases lane <;> cases went <;> exact ⟨rfl, rfl, rfl, rfl, rfl⟩

theorem done_inHand (went : Bool) : (q.done went).inHand = none := by
  unfold Queue.done
  split
  · assumption
  · rename_i lane _
    cases lane <;> rfl

/-- The frame in hand is counted once, whichever way its write ended. -/
theorem Balanced.done (h : q.Balanced) (went : Bool) : (q.done went).Balanced := by
  intro lane
  have hlane := h lane
  unfold Queue.done
  split
  · exact hlane
  · rename_i held hheld
    cases held <;> cases lane <;> cases went <;> simp_all [of, setOf, frames] <;> omega

/-- The frames of the lines are counted as they are thrown away. -/
theorem Balanced.shut (h : q.Balanced) : q.shut.Balanced := by
  intro lane
  have hlane := h lane
  cases lane <;> simp_all [Queue.shut, of, frames] <;> omega

/-- To abandon the frame in hand is to be done with one that did not go. -/
theorem abandon_eq_done : q.abandon = q.done false := rfl

theorem Balanced.abandon (h : q.Balanced) : q.abandon.Balanced := abandon_eq_done ▸ h.done false

end Queue

/-- A turn lets a frame in at the end of its line, on a queue that is open, or it changes no more
than the line of tickets. -/
theorem Call.turn_cases (call : Call) (q : Queue) (late : Bool) :
    (∃ ticket frame, call = .message ticket frame ∧ q.isOpen ∧ q.waiting ≤ outboxBytes ∧
      q.line.head? = some ticket ∧ call.turn q late = (.through, { q with
        line := q.line.tail
        waiting := q.waiting + (frame.length + frameCost)
        messages := q.messages ++ [frame]
        sent := { q.sent with taken := q.sent.taken + 1 } })) ∨
    (∃ frame, call = .control frame ∧ q.isOpen ∧ q.controlWaiting ≤ outboxControlBytes ∧
      call.turn q late = (.through, { q with
        controlWaiting := q.controlWaiting + (frame.length + frameCost)
        control := q.control ++ [frame]
        controlSent := { q.controlSent with taken := q.controlSent.taken + 1 } })) ∨
    (∃ line, (call.turn q late).2 = { q with line } ∧
      ((call.turn q late).1 = .through → ∃ wanted wantedControl,
        call = .flush wanted wantedControl)) := by
  cases call with
  | message ticket frame =>
    simp only [turn, Queue.messageTurn]
    split_ifs with hclosed hroom hlate
    · exact .inr (.inr ⟨_, rfl, by simp⟩)
    · exact .inl ⟨ticket, frame, rfl, by simpa using hclosed, hroom.1, hroom.2, rfl⟩
    · exact .inr (.inr ⟨_, rfl, by simp⟩)
    · exact .inr (.inr ⟨_, rfl, by simp⟩)
  | control frame =>
    simp only [turn, Queue.controlTurn]
    split_ifs with hclosed hroom hlate
    · exact .inr (.inr ⟨_, rfl, by simp⟩)
    · exact .inr (.inl ⟨frame, rfl, by simpa using hclosed, hroom, rfl⟩)
    · exact .inr (.inr ⟨_, rfl, by simp⟩)
    · exact .inr (.inr ⟨_, rfl, by simp⟩)
  | flush wanted wantedControl => exact .inr (.inr ⟨_, rfl, fun _ => ⟨_, _, rfl⟩⟩)

/-- A turn neither opens the queue nor closes it. -/
theorem Call.turn_isOpen (call : Call) (q : Queue) (late : Bool) :
    (call.turn q late).2.isOpen = q.isOpen := by
  rcases call.turn_cases q late with ⟨_, _, -, -, -, -, hturn⟩ | ⟨_, -, -, -, hturn⟩ | ⟨line, hqueue, -⟩
  · rw [hturn]
  · rw [hturn]
  · rw [hqueue]

/-- The step of a caller is a turn of its call, where it may have taken a place in the line. -/
theorem step_ofCaller {s t : State} {act : Act} (hact : act.ofCaller) (hstep : step s act = some t) :
    ∃ line nextTicket name call late,
      t = { s with queue := { s.queue with line, nextTicket } }.turn name call late := by
  cases act with
  | putMessage name frame late =>
    simp only [step] at hstep
    split_ifs at hstep
    cases hstep
    exact ⟨_, _, name, _, late, rfl⟩
  | putControl name frame late =>
    simp only [step] at hstep
    split_ifs at hstep
    cases hstep
    exact ⟨s.queue.line, s.queue.nextTicket, name, _, late, rfl⟩
  | flush name late =>
    simp only [step] at hstep
    split_ifs at hstep
    cases hstep
    exact ⟨s.queue.line, s.queue.nextTicket, name, _, late, rfl⟩
  | wake name late =>
    obtain ⟨call, -, rfl⟩ := Option.map_eq_some_iff.1 hstep
    exact ⟨s.queue.line, s.queue.nextTicket, name, call, late, rfl⟩
  | take | done | shut | abandon | exitShut | exitAbandon => cases hact

/-- What the writer finds in the lines: a frame that is then in its hand, or none. -/
theorem step_take {s t : State} (hstep : step s .take = some t) :
    s.writer = .idle ∧ (t = s ∨ ∃ lane frame,
      t = { s with queue := s.queue.take.2, writer := .holding lane frame } ∧
        t.queue.sent = s.queue.sent ∧ t.queue.controlSent = s.queue.controlSent ∧
        t.queue.isOpen = s.queue.isOpen ∧ ¬ (s.queue.messages = [] ∧ s.queue.control = [])) := by
  simp only [step] at hstep
  split at hstep
  · rename_i hidle
    refine ⟨hidle, ?_⟩
    obtain ⟨htake, -, -⟩ | ⟨lane, frame, hframe, hsent, hcontrolSent, hopen, hlines⟩ :=
      s.queue.take_cases
    · rw [htake] at hstep
      exact .inl (Option.some.inj hstep).symm
    · rcases htake : s.queue.take with ⟨_, queue⟩
      rw [htake] at hframe hsent hcontrolSent hopen
      cases hframe
      rw [htake] at hstep
      cases hstep
      exact .inr ⟨lane, frame, rfl, hsent, hcontrolSent, hopen, hlines⟩
  · cases hstep

/-- What holds of an outbox and its callers in every state they reach. -/
structure Counted (s : State) : Prop where
  balanced : s.queue.Balanced
  published_eq : s.published = s.queue.sent.taken
  subscribed_eq : s.subscribed = s.queue.controlSent.taken
  idle : s.writer = .idle → s.queue.inHand = none
  closed : s.queue.isOpen = false → s.queue.messages = [] ∧ s.queue.control = []
  leaving : s.writer = .leaving ∨ s.writer = .gone → s.queue.isOpen = false
  gone : s.writer = .gone → s.queue.inHand = none

theorem counted_new : Counted .new :=
  ⟨Queue.balanced_new, rfl, rfl, fun _ => rfl, fun _ => ⟨rfl, rfl⟩, fun h => by simp [State.new] at h,
    fun _ => rfl⟩

namespace State

variable (s : State) (name : ℕ) (call : Call) (late : Bool)

@[simp] theorem turn_queue : (s.turn name call late).queue = (call.turn s.queue late).2 := rfl

@[simp] theorem turn_writer : (s.turn name call late).writer = s.writer := rfl

end State

namespace Counted

variable {s : State}

/-- A turn of a call keeps the books. -/
theorem turn (h : Counted s) (name : ℕ) (call : Call) (late : Bool) :
    Counted (s.turn name call late) := by
  have hpublished := h.published_eq
  have hsubscribed := h.subscribed_eq
  obtain ⟨ticket, frame, rfl, hopen, -, -, hturn⟩ | ⟨frame, rfl, hopen, -, hturn⟩ |
    ⟨line, hqueue, hflush⟩ := call.turn_cases s.queue late
  · refine ⟨?_, ?_, ?_, ?_, ?_, ?_, ?_⟩ <;> simp only [State.turn, hturn]
    · exact h.balanced.letMessage frame
    · simp [Call.lane, hpublished]
    · simp [Call.lane, hsubscribed]
    · exact h.idle
    · simp [hopen]
    · exact h.leaving
    · exact h.gone
  · refine ⟨?_, ?_, ?_, ?_, ?_, ?_, ?_⟩ <;> simp only [State.turn, hturn]
    · exact h.balanced.letControl frame
    · simp [Call.lane, hpublished]
    · simp [Call.lane, hsubscribed]
    · exact h.idle
    · simp [hopen]
    · exact h.leaving
    · exact h.gone
  · have hlane : ∀ lane, ¬ ((call.turn s.queue late).1 = .through ∧ call.lane = some lane) := by
      rintro lane ⟨hthrough, hlane⟩
      obtain ⟨wanted, wantedControl, rfl⟩ := hflush hthrough
      cases hlane
    refine ⟨?_, ?_, ?_, ?_, ?_, ?_, ?_⟩ <;> simp only [State.turn, hqueue, if_neg (hlane _)]
    · exact h.balanced.congr rfl rfl rfl rfl rfl
    · exact hpublished
    · exact hsubscribed
    · exact h.idle
    · exact h.closed
    · exact h.leaving
    · exact h.gone

/-- What `done`, and so `abandon`, keeps of the books, wherever the writer goes from there. -/
theorem afterDone (h : Counted s) (went : Bool) {writer : Writer}
    (hwriter : writer = .leaving ∨ writer = .gone → s.queue.isOpen = false) :
    Counted { s with queue := s.queue.done went, writer } := by
  obtain ⟨hmessages, hcontrol, hopen, htaken, hcontrolTaken⟩ := s.queue.done_lines went
  exact ⟨h.balanced.done went, h.published_eq.trans htaken.symm,
    h.subscribed_eq.trans hcontrolTaken.symm, fun _ => Queue.done_inHand went,
    by simpa only [hmessages, hcontrol, hopen] using h.closed,
    fun hw => hopen.trans (hwriter hw), fun _ => Queue.done_inHand went⟩

/-- What `shut` keeps, where the writer stays or leaves. -/
theorem afterShut (h : Counted s) {writer : Writer}
    (hwriter : writer = s.writer ∨ writer = .leaving) :
    Counted { s with queue := s.queue.shut, writer } := by
  refine ⟨h.balanced.shut, h.published_eq, h.subscribed_eq, ?_, fun _ => ⟨rfl, rfl⟩, fun _ => rfl, ?_⟩
  · rintro rfl
    exact h.idle (by simpa [eq_comm] using hwriter)
  · rintro rfl
    exact h.gone (by simpa [eq_comm] using hwriter)

/-- **No step of any caller loses a frame uncounted or counts one twice.** -/
theorem step {act : Act} {t : State} (h : Counted s) (hstep : step s act = some t) : Counted t := by
  cases act with
  | putMessage | putControl | flush | wake =>
    obtain ⟨line, nextTicket, name, call, late, rfl⟩ := step_ofCaller rfl hstep
    -- A place in the line is in no count.
    have hline : Counted { s with queue := { s.queue with line, nextTicket } } :=
      ⟨h.balanced.congr rfl rfl rfl rfl rfl, h.published_eq, h.subscribed_eq, h.idle, h.closed,
        h.leaving, h.gone⟩
    exact hline.turn name call late
  | take =>
    obtain ⟨hidle, rfl | ⟨lane, frame, rfl, hsent, hcontrolSent, hopen, hlines⟩⟩ := step_take hstep
    · exact h
    · exact ⟨h.balanced.take (h.idle hidle), h.published_eq.trans (congrArg Sent.taken hsent.symm),
        h.subscribed_eq.trans (congrArg Sent.taken hcontrolSent.symm), by simp,
        fun hclosed => absurd (h.closed (hopen.symm.trans hclosed)) hlines, by simp, by simp⟩
  | done went =>
    simp only [Outbox.step] at hstep
    split at hstep
    · cases hstep
      exact h.afterDone went (by cases went <;> simp)
    · cases hstep
  | shut =>
    cases hstep
    exact h.afterShut (.inl rfl)
  | abandon =>
    cases hstep
    exact h.afterDone false h.leaving
  | exitShut =>
    simp only [Outbox.step] at hstep
    split at hstep
    · cases hstep
    · cases hstep
    · cases hstep
      exact h.afterShut (.inr rfl)
  | exitAbandon =>
    simp only [Outbox.step] at hstep
    split at hstep
    · rename_i hleaving
      cases hstep
      exact h.afterDone false fun _ => h.leaving (.inl hleaving)
    · cases hstep

end Counted

/-- Behind every run the books are kept. -/
theorem counted_of_run {acts : List Act} {s : State} (hrun : Machine.run step .new acts = some s) :
    Counted s :=
  Machine.run_invariant (fun _ _ _ h hstep => Counted.step h hstep) counted_new hrun

/-- No step but a `shut` changes whether the queue is open, and that one closes it. -/
theorem isOpen_step {s t : State} {act : Act} (hstep : step s act = some t) :
    t.queue.isOpen = s.queue.isOpen ∨ (act = .shut ∨ act = .exitShut) ∧ t.queue.isOpen = false := by
  cases act with
  | putMessage | putControl | flush | wake =>
    obtain ⟨line, nextTicket, name, call, late, rfl⟩ := step_ofCaller rfl hstep
    exact .inl (call.turn_isOpen _ late)
  | take =>
    obtain ⟨-, rfl | ⟨lane, frame, rfl, -, -, hopen, -⟩⟩ := step_take hstep
    · exact .inl rfl
    · exact .inl hopen
  | done went =>
    simp only [step] at hstep
    split at hstep <;> cases hstep
    exact .inl (s.queue.done_lines went).2.2.1
  | shut => cases hstep; exact .inr ⟨.inl rfl, rfl⟩
  | abandon => cases hstep; exact .inl (s.queue.done_lines false).2.2.1
  | exitShut =>
    simp only [step] at hstep
    split at hstep <;> cases hstep
    exact .inr ⟨.inr rfl, rfl⟩
  | exitAbandon =>
    simp only [step] at hstep
    split at hstep <;> cases hstep
    exact .inl (s.queue.done_lines false).2.2.1

/-! ### Once the writer is gone -/

theorem Call.turn_sent_of_closed (call : Call) {q : Queue} (h : q.isOpen = false) (late : Bool) :
    (call.turn q late).2.sent = q.sent := by
  rcases call.turn_cases q late with ⟨_, _, -, hopen, -⟩ | ⟨_, -, hopen, -⟩ | ⟨line, hqueue, -⟩
  · rw [h] at hopen
    cases hopen
  · rw [h] at hopen
    cases hopen
  · rw [hqueue]

/-- No step moves a count of messages once the writer is gone. -/
theorem Counted.step_of_gone {s t : State} {act : Act} (h : Counted s) (hgone : s.writer = .gone)
    (hstep : Outbox.step s act = some t) : t.writer = .gone ∧ t.queue.sent = s.queue.sent := by
  have hclosed := h.leaving (.inr hgone)
  cases act with
  | putMessage | putControl | flush | wake =>
    obtain ⟨line, nextTicket, name, call, late, rfl⟩ := step_ofCaller rfl hstep
    exact ⟨hgone, call.turn_sent_of_closed (q := { s.queue with line, nextTicket }) hclosed late⟩
  | shut =>
    cases hstep
    refine ⟨hgone, ?_⟩
    simp [Queue.shut, (h.closed hclosed).1]
  | abandon =>
    cases hstep
    refine ⟨hgone, ?_⟩
    simp [Queue.abandon, h.gone hgone]
  | take | done | exitShut | exitAbandon => simp [Outbox.step, hgone] at hstep

/-- **No frame of an outbox is lost uncounted or counted twice**, in any interleaving of its
callers.  Once the writer is gone, the publishes that were answered `Ok` are those that it wrote
and those that are counted as lost, and no later call moves a count. -/
theorem counts_of_run {acts : List Act} {s : State} (hrun : Machine.run step .new acts = some s) :
    (∀ lane, (s.queue.of lane).taken = (s.queue.of lane).wrote + (s.queue.of lane).lost +
      (s.queue.frames lane).length + if s.queue.inHand = some lane then 1 else 0) ∧
    (s.writer = .gone → s.published = s.queue.sent.wrote + s.queue.lostMessages ∧
      ∀ later t, Machine.run step s later = some t → t.published = s.published ∧
        t.queue.sent.wrote = s.queue.sent.wrote ∧ t.queue.lostMessages = s.queue.lostMessages) := by
  have h := counted_of_run hrun
  refine ⟨h.balanced, fun hgone => ⟨?_, fun later t hlater => ?_⟩⟩
  · have hmessages := (h.closed (h.leaving (.inr hgone))).1
    have hmessage := h.balanced .message
    rw [h.published_eq]
    simpa [Queue.of, Queue.frames, Queue.lostMessages, hmessages, h.gone hgone] using hmessage
  · have hsettled := Machine.run_invariant
      (P := fun u => Counted u ∧ u.writer = .gone ∧ u.queue.sent = s.queue.sent)
      (fun u act v hu hstep => by
        obtain ⟨hcounted, hwriter, hsent⟩ := hu
        obtain ⟨hwriter', hsent'⟩ := hcounted.step_of_gone hwriter hstep
        exact ⟨hcounted.step hstep, hwriter', hsent'.trans hsent⟩) ⟨h, hgone, rfl⟩ hlater
    obtain ⟨hcounted, -, hsent⟩ := hsettled
    refine ⟨?_, congrArg Sent.wrote hsent, congrArg Sent.lost hsent⟩
    rw [hcounted.published_eq, h.published_eq, hsent]

/-- Two publishes, one of them in hand and the other in its line where the queue is shut. -/
theorem counts_of_run_of_two : ∃ s,
    Machine.run step .new [.putMessage 0 [7] false, .putMessage 1 [8] false, .take, .shut,
      .done true, .exitShut, .exitAbandon] = some s ∧
    s.published = 2 ∧ s.published = s.queue.sent.wrote + s.queue.lostMessages := by
  obtain ⟨s, hrun, hpublished, hgone⟩ : ∃ s,
      Machine.run step .new [.putMessage 0 [7] false, .putMessage 1 [8] false, .take, .shut,
        .done true, .exitShut, .exitAbandon] = some s ∧ s.published = 2 ∧ s.writer = .gone :=
    ⟨_, rfl, rfl, rfl⟩
  exact ⟨s, hrun, hpublished, ((counts_of_run hrun).2 hgone).1⟩

end LcmBus.Outbox
