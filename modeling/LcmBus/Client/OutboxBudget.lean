import LcmBus.Client.OutboxTickets

/-!
# The budget of an outbox

Each lane has a count of the bytes that wait in it, which a publish looks at before it lets its frame in.

* `cost` and `costs`: what frames take of a budget; `Queue.budget` is the count of a lane, `Lane.limit` the
  count at which a call waits;
* `Call.turn_budget` and `Queue.take_budget`: the two places where a count moves;
* `Budgeted` and `Budgeted.step`: no step of any caller lets a count drift;
* `budget_is_exact`: the counts of every state that is reached.
-/

namespace LcmBus.Outbox

variable {s t : State}

/-- What a frame takes of the budget of its lane. -/
def cost (frame : Bytes) : ℕ := frame.length + frameCost

def costs (frames : List Bytes) : ℕ := (frames.map cost).sum

/-- The largest of them, or zero. -/
def largest (frames : List Bytes) : ℕ := (frames.map cost).foldr max 0

theorem cost_le_largest {frames : List Bytes} {frame : Bytes} (h : frame ∈ frames) :
    cost frame ≤ largest frames :=
  List.le_max_of_le (List.mem_map_of_mem h) le_rfl

theorem largest_mono {frames frames' : List Bytes} (h : frames ⊆ frames') :
    largest frames ≤ largest frames' := by
  induction frames with
  | nil => exact Nat.zero_le _
  | cons frame frames ih =>
    exact max_le (cost_le_largest (h (List.mem_cons_self ..)))
      (ih fun x hx => h (List.mem_cons_of_mem _ hx))

/-- The count of the bytes in a lane. -/
def Queue.budget (q : Queue) : Lane → ℕ
  | .message => q.waiting
  | .control => q.controlWaiting

/-- The count at which a call for the lane waits. -/
def Lane.limit : Lane → ℕ
  | .message => outboxBytes
  | .control => outboxControlBytes

/-- The frame a call brings for a lane. -/
def Act.puts (lane : Lane) : Act → List Bytes
  | .putMessage _ frame _ => if lane = .message then [frame] else []
  | .putControl _ frame _ => if lane = .control then [frame] else []
  | _ => []

/-- The frames that the calls of a past brought for a lane. -/
def puts (lane : Lane) (past : List (State × Act × State)) : List Bytes :=
  past.flatMap fun (_, act, _) => act.puts lane

/-! ### Where a count moves -/

/-- A turn adds the frame of its call to the count of its lane, where that is within its limit, and
leaves every other count. -/
theorem Call.turn_budget (call : Call) (q : Queue) (late : Bool) (lane : Lane) :
    let turned := (call.turn q late).2
    (turned.budget lane = q.budget lane ∧ turned.frames lane = q.frames lane) ∨
    ∃ frame, call.lane = some lane ∧ call.frames = [frame] ∧ q.budget lane ≤ lane.limit ∧
      turned.budget lane = q.budget lane + cost frame ∧ turned.frames lane = q.frames lane ++ [frame] := by
  obtain ⟨ticket, frame, rfl, -, hroom, -, hturn⟩ | ⟨frame, rfl, -, hroom, hturn⟩ | ⟨line, hqueue, -⟩ :=
    call.turn_cases q late
  · rw [hturn]
    cases lane
    · exact .inr ⟨frame, rfl, rfl, hroom, rfl, rfl⟩
    · exact .inl ⟨rfl, rfl⟩
  · rw [hturn]
    cases lane
    · exact .inl ⟨rfl, rfl⟩
    · exact .inr ⟨frame, rfl, rfl, hroom, rfl, rfl⟩
  · rw [hqueue]
    cases lane <;> exact .inl ⟨rfl, rfl⟩

namespace Queue

variable {q q' : Queue}

/-- A take counts its frame out of the lane it came from, and no other. -/
theorem take_budget {held : Lane} {frame : Bytes} (h : q.take = (some (held, frame), q')) (lane : Lane) :
    q'.budget lane = q.budget lane - if held = lane then cost frame else 0 := by
  unfold take at h
  split at h <;> cases h <;> cases lane <;> rfl

theorem done_budget (q : Queue) (went : Bool) (lane : Lane) :
    (q.done went).budget lane = q.budget lane := by
  unfold done
  split
  · rfl
  · rename_i held _
    cases held <;> cases lane <;> rfl

theorem shut_budget (q : Queue) (lane : Lane) : q.shut.budget lane = 0 := by cases lane <;> rfl

end Queue

/-! ### What holds of the counts -/

/-- The counts are those of the frames that wait, and no larger than their limits and one frame. -/
structure Budgeted (s : State) (put : Lane → List Bytes) : Prop where
  budget_eq : ∀ lane, s.queue.budget lane = costs (s.queue.frames lane)
  budget_le : ∀ lane, s.queue.budget lane ≤ lane.limit + largest (put lane)
  put_of_call : ∀ {name call lane}, s.calls name = some call → call.lane = some lane →
    call.frames ⊆ put lane

theorem budgeted_new : Budgeted .new fun _ => [] where
  budget_eq lane := by cases lane <;> rfl
  budget_le lane := by cases lane <;> exact Nat.zero_le _
  put_of_call h := by cases h

namespace Budgeted

variable {put : Lane → List Bytes}

/-- More that is put raises the largest. -/
theorem mono (h : Budgeted s put) {put' : Lane → List Bytes} (hput : ∀ lane, put lane ⊆ put' lane) :
    Budgeted s put' where
  budget_eq := h.budget_eq
  budget_le lane := (h.budget_le lane).trans (Nat.add_le_add_left (largest_mono (hput lane)) _)
  put_of_call hcall hlane := List.Subset.trans (h.put_of_call hcall hlane) (hput _)

/-- What touches no lane is nothing to the counts. -/
theorem congr (h : Budgeted s put) (hbudget : ∀ lane, t.queue.budget lane = s.queue.budget lane)
    (hframes : ∀ lane, t.queue.frames lane = s.queue.frames lane) (hcalls : t.calls = s.calls) :
    Budgeted t put where
  budget_eq lane := by rw [hbudget, hframes, h.budget_eq]
  budget_le lane := by rw [hbudget]; exact h.budget_le lane
  put_of_call := by rw [hcalls]; exact h.put_of_call

theorem turn (h : Budgeted s put) (name : ℕ) {call : Call}
    (hput : ∀ lane, call.lane = some lane → call.frames ⊆ put lane) (late : Bool) :
    Budgeted (s.turn name call late) put where
  budget_eq lane := by
    rw [State.turn_queue]
    rcases call.turn_budget s.queue late lane with ⟨hbudget, hframes⟩ | ⟨frame, -, -, -, hbudget, hframes⟩
    · rw [hbudget, hframes, h.budget_eq]
    · rw [hbudget, hframes, h.budget_eq]
      simp [costs]
  budget_le lane := by
    rw [State.turn_queue]
    obtain ⟨hbudget, -⟩ | ⟨frame, hlane, hframe, hroom, hbudget, -⟩ :=
      call.turn_budget s.queue late lane
    · rw [hbudget]
      exact h.budget_le lane
    · rw [hbudget]
      have hmem := hput lane hlane
      rw [hframe] at hmem
      exact Nat.add_le_add hroom (cost_le_largest (hmem (List.mem_singleton.2 rfl)))
  put_of_call {other call' lane} hcall hlane := by
    simp only [State.turn, Function.update_apply] at hcall
    split_ifs at hcall
    · cases hcall
      exact hput lane hlane
    · exact h.put_of_call hcall hlane

theorem take (h : Budgeted s put) {held : Lane} {frame : Bytes} {queue : Queue}
    (htake : s.queue.take = (some (held, frame), queue)) :
    Budgeted { s with queue, writer := .holding held frame } put where
  budget_eq lane := by
    obtain ⟨hfirst, hothers, -⟩ := s.queue.take_frames htake
    show queue.budget lane = costs (queue.frames lane)
    rw [Queue.take_budget htake, h.budget_eq]
    split_ifs with hlane
    · subst hlane
      simp [hfirst, costs]
    · rw [hothers lane (Ne.symm hlane), Nat.sub_zero]
  budget_le lane := by
    refine le_trans ?_ (h.budget_le lane)
    show queue.budget lane ≤ s.queue.budget lane
    rw [Queue.take_budget htake]
    exact Nat.sub_le _ _
  put_of_call := h.put_of_call

theorem shut (h : Budgeted s put) (writer : Writer) :
    Budgeted { s with queue := s.queue.shut, writer } put where
  budget_eq lane := by
    show s.queue.shut.budget lane = _
    rw [Queue.shut_budget, Queue.shut_frames]
    rfl
  budget_le lane := by
    show s.queue.shut.budget lane ≤ _
    rw [Queue.shut_budget]
    exact Nat.zero_le _
  put_of_call := h.put_of_call

theorem done (h : Budgeted s put) (went : Bool) (writer : Writer) :
    Budgeted { s with queue := s.queue.done went, writer } put :=
  h.congr (s.queue.done_budget went) (fun lane => s.queue.done_frames lane went) rfl

/-- **No step of any caller lets a count drift.** -/
theorem step (h : Budgeted s put) {act : Act} (hstep : Outbox.step s act = some t) :
    Budgeted t fun lane => put lane ++ act.puts lane := by
  have hmore : Budgeted s fun lane => put lane ++ act.puts lane :=
    h.mono fun lane => List.subset_append_left _ _
  cases act with
  | putMessage name frame late =>
    simp only [Outbox.step] at hstep
    split_ifs at hstep
    cases hstep
    have hline : Budgeted { s with queue := s.queue.enter.2 } _ :=
      hmore.congr (fun lane => by cases lane <;> rfl) (fun lane => by cases lane <;> rfl) rfl
    refine hline.turn name (fun lane hlane => ?_) late
    cases hlane
    exact List.subset_append_right _ _
  | putControl name frame late =>
    simp only [Outbox.step] at hstep
    split_ifs at hstep
    cases hstep
    refine hmore.turn name (fun lane hlane => ?_) late
    cases hlane
    exact List.subset_append_right _ _
  | flush name late =>
    simp only [Outbox.step] at hstep
    split_ifs at hstep
    cases hstep
    exact hmore.turn name (fun _ hlane => by cases hlane) late
  | wake name late =>
    obtain ⟨call, hname, rfl⟩ := Option.map_eq_some_iff.1 hstep
    exact hmore.turn name (fun lane => hmore.put_of_call hname) late
  | take =>
    obtain ⟨-, rfl | ⟨held, frame, queue, htake, rfl⟩⟩ := step_take_frame hstep
    · exact hmore
    · exact hmore.take htake
  | done ok =>
    simp only [Outbox.step] at hstep
    split at hstep <;> cases hstep
    exact hmore.done ok _
  | shut =>
    cases hstep
    exact hmore.shut s.writer
  | abandon =>
    cases hstep
    exact hmore.done false s.writer
  | exitShut =>
    simp only [Outbox.step] at hstep
    split at hstep <;> cases hstep
    exact hmore.shut .leaving
  | exitAbandon =>
    simp only [Outbox.step] at hstep
    split at hstep <;> cases hstep
    exact hmore.done false .gone

end Budgeted

theorem budgeted_of_run {acts : List Act} (hrun : Machine.run step .new acts = some s) :
    Budgeted s fun lane => puts lane (Machine.transitions step .new acts) := by
  have hnew : Budgeted .new fun lane => puts lane [] := budgeted_new
  have h := Machine.run_history (P := fun s past => Budgeted s fun lane => puts lane past)
    (fun s past act t h hstep => by simpa [puts] using h.step hstep) hnew hrun
  rwa [List.nil_append] at h

/-- Where there is room and nobody waits, a publish that comes is through. -/
theorem Queue.messageTurn_of_room {q : Queue} (hopen : q.isOpen = true) (hroom : q.waiting ≤ outboxBytes)
    (hline : q.line = []) (frame : Bytes) (late : Bool) :
    q.enter.2.messageTurn q.nextTicket frame late = (.through, { q.enter.2 with
      line := q.enter.2.line.tail
      waiting := q.waiting + cost frame
      messages := q.messages ++ [frame]
      sent := { q.sent with taken := q.sent.taken + 1 } }) := by
  have hfirst : q.enter.2.line.head? = some q.nextTicket := by simp [enter, hline]
  rw [messageTurn, if_neg (by simp [enter, hopen]), if_pos ⟨hroom, hfirst⟩]
  rfl

/-- **The budget of an outbox is exact**, in any interleaving of its callers.  The count of each lane is
that of the frames in it, so no take counts out more than is there, and a `shut` leaves both at zero with
both lanes empty.  No count is above its limit and the largest frame that was put.  The frame in hand is
in neither, so where there is room and nobody waits, a publish goes in at once, however long its frame is
and however late it comes. -/
theorem budget_is_exact {acts : List Act} (hrun : Machine.run step .new acts = some s) :
    let past := Machine.transitions step .new acts
    (s.queue.waiting = costs s.queue.messages ∧ s.queue.controlWaiting = costs s.queue.control) ∧
    (∀ held frame queue, s.queue.take = (some (held, frame), queue) →
      cost frame ≤ s.queue.budget held ∧ queue.budget held + cost frame = s.queue.budget held) ∧
    ((s.queue.shut.waiting = 0 ∧ s.queue.shut.controlWaiting = 0 ∧ s.queue.shut.messages = [] ∧
        s.queue.shut.control = []) ∧
      (s.queue.isOpen = false → s.queue.waiting = 0 ∧ s.queue.controlWaiting = 0 ∧
        s.queue.messages = [] ∧ s.queue.control = [])) ∧
    (s.queue.waiting ≤ outboxBytes + largest (puts .message past) ∧
      s.queue.controlWaiting ≤ outboxControlBytes + largest (puts .control past)) ∧
    ∀ name frame late, s.calls name = none → s.queue.isOpen = true → s.queue.waiting ≤ outboxBytes →
      s.queue.line = [] → ∃ t, step s (.putMessage name frame late) = some t ∧
        turnOf s (.putMessage name frame late) = some (s.queue.nextTicket, frame, .through) ∧
        t.queue.messages = s.queue.messages ++ [frame] ∧ t.calls name = none := by
  intro past
  have h := budgeted_of_run hrun
  refine ⟨⟨h.budget_eq .message, h.budget_eq .control⟩, fun held frame queue htake => ?_,
    ⟨⟨rfl, rfl, rfl, rfl⟩, fun hclosed => ?_⟩, ⟨h.budget_le .message, h.budget_le .control⟩,
    fun name frame late hname hopen hroom hline => ?_⟩
  · obtain ⟨hfirst, -⟩ := s.queue.take_frames htake
    have hheld : cost frame ≤ s.queue.budget held := by
      rw [h.budget_eq, hfirst]
      simp [costs]
    rw [Queue.take_budget htake, if_pos rfl]
    exact ⟨hheld, Nat.sub_add_cancel hheld⟩
  · obtain ⟨hmessages, hcontrol⟩ := (counted_of_run hrun).closed hclosed
    have hwaiting := h.budget_eq .message
    have hcontrolWaiting := h.budget_eq .control
    simp only [Queue.frames, hmessages, hcontrol] at hwaiting hcontrolWaiting
    exact ⟨hwaiting, hcontrolWaiting, hmessages, hcontrol⟩
  · have hturn := Queue.messageTurn_of_room hopen hroom hline frame late
    refine ⟨{ s with queue := s.queue.enter.2 }.turn name (.message s.queue.nextTicket frame) late,
      ?_, ?_, congrArg (fun turned => turned.2.messages) hturn, ?_⟩
    · rw [step, if_pos hname]
      rfl
    · exact congrArg (fun turned => some (s.queue.nextTicket, frame, turned.1)) hturn
    · refine (Function.update_self ..).trans (if_neg fun hwaits => ?_)
      cases (congrArg Prod.fst hturn).symm.trans hwaits

/-- Two messages, one of them in the hand of the writer. -/
theorem budget_is_exact_of_two : ∃ s,
    Machine.run step .new [.putMessage 0 [7] false, .putMessage 1 [8] false, .take] = some s ∧
      s.queue.waiting = 41 ∧ s.queue.waiting = costs s.queue.messages := by
  obtain ⟨s, hrun, hwaiting⟩ : ∃ s,
      Machine.run step .new [.putMessage 0 [7] false, .putMessage 1 [8] false, .take] = some s ∧
        s.queue.waiting = 41 := ⟨_, rfl, rfl⟩
  exact ⟨s, hrun, hwaiting, (budget_is_exact hrun).1.1⟩

end LcmBus.Outbox
