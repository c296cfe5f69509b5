import LcmBus.Client.LinkWire
import LcmBus.Lib.Tickets

/-!
# The line of an outbox

Room goes to the publish that has waited longest, whichever thread wakes first and whichever gives up.

* `turnOf`: the publish that has its turn in a step, with what it is answered; `asked`, `admitted` and
  `gaveUp` are the tickets of a past;
* `Queued`: the line is a line of tickets, and holds those of the publishes that wait;
* `Queued.step`: every step of any caller keeps it;
* `room_in_order`: behind every run, and the frames that the writer takes with it.
-/

namespace LcmBus.Outbox

variable {s t : State}

/-! ### The publishes of a past -/

/-- The publish that has a turn in a step: its ticket, its frame and what it is answered. -/
def turnOf (s : State) : Act → Option (ℕ × Bytes × Turn)
  | .putMessage _ frame late =>
    let (ticket, queue) := s.queue.enter
    some (ticket, frame, (queue.messageTurn ticket frame late).1)
  | .wake name late =>
    match s.calls name with
    | some (.message ticket frame) => some (ticket, frame, (s.queue.messageTurn ticket frame late).1)
    | _ => none
  | _ => none

/-- The ticket a step hands out, with the frame it is for. -/
def askedIn (s : State) : Act → List (ℕ × Bytes)
  | .putMessage _ frame _ => [(s.queue.nextTicket, frame)]
  | _ => []

/-- The ticket and the frame that a turn lets in. -/
def Turn.admits (turn : Turn) (ticket : ℕ) (frame : Bytes) : List (ℕ × Bytes) :=
  if turn = .through then [(ticket, frame)] else []

/-- The ticket that a turn takes out of the line for nothing. -/
def Turn.refuses (turn : Turn) (ticket : ℕ) : List ℕ :=
  if turn = .through ∨ turn = .waits then [] else [ticket]

def admittedIn (s : State) (act : Act) : List (ℕ × Bytes) :=
  (turnOf s act).toList.flatMap fun (ticket, frame, turn) => turn.admits ticket frame

def gaveUpIn (s : State) (act : Act) : List ℕ :=
  (turnOf s act).toList.flatMap fun (ticket, _, turn) => turn.refuses ticket

/-- The publishes of a past in the order they took the lock, each with its ticket. -/
def asked (past : List (State × Act × State)) : List (ℕ × Bytes) :=
  past.flatMap fun (s, act, _) => askedIn s act

/-- Those that were let in, in the order they were. -/
def admitted (past : List (State × Act × State)) : List (ℕ × Bytes) :=
  past.flatMap fun (s, act, _) => admittedIn s act

/-- The tickets of those that were refused. -/
def gaveUp (past : List (State × Act × State)) : List ℕ :=
  past.flatMap fun (s, act, _) => gaveUpIn s act

/-- The frames the writer took out of both lanes. -/
def takenOut (past : List (State × Act × State)) : List (Lane × Bytes) :=
  past.flatMap fun (s, _, t) => tookIn s t

/-! ### What holds of the line -/

/-- The line of tickets holds those of the publishes that wait, each one's own, and what was let in is
what was asked for. -/
structure Queued (s : State) (asked admitted : List (ℕ × Bytes)) (gaveUp : List ℕ) : Prop where
  tickets : Tickets s.queue.line (admitted.map Prod.fst) gaveUp s.queue.nextTicket
  mem_line : ∀ ticket, ticket ∈ s.queue.line ↔
    ∃ name frame, s.calls name = some (.message ticket frame)
  own : ∀ {name other ticket frame frame'}, s.calls name = some (.message ticket frame) →
    s.calls other = some (.message ticket frame') → name = other
  asked_eq : asked.map Prod.fst = List.range s.queue.nextTicket
  asked_call : ∀ {name ticket frame}, s.calls name = some (.message ticket frame) →
    (ticket, frame) ∈ asked
  admitted_subset : admitted ⊆ asked

theorem queued_new : Queued .new [] [] [] where
  tickets := .new
  mem_line ticket := by simp [State.new, Queue.new]
  own h := by cases h
  asked_eq := rfl
  asked_call h := by cases h
  admitted_subset := List.Subset.refl _

/-- A publish that has its ticket and has not had a turn. -/
def State.seated (s : State) (name : ℕ) (frame : Bytes) : State :=
  { s with
    queue := s.queue.enter.2
    calls := Function.update s.calls name (some (.message s.queue.nextTicket frame)) }

theorem step_putMessage {name : ℕ} {frame : Bytes} {late : Bool}
    (hstep : step s (.putMessage name frame late) = some t) :
    s.calls name = none ∧
      t = (s.seated name frame).turn name (.message s.queue.nextTicket frame) late := by
  simp only [step] at hstep
  split_ifs at hstep with hname
  cases hstep
  refine ⟨hname, ?_⟩
  simp only [State.turn, State.seated, Function.update_idem]
  rfl

namespace Queued

variable {came went : List (ℕ × Bytes)} {left : List ℕ}

/-- A publish comes to the end of the line. -/
theorem enter (h : Queued s came went left) {name : ℕ} (hname : s.calls name = none) (frame : Bytes) :
    Queued (s.seated name frame) (came ++ [(s.queue.nextTicket, frame)]) went left := by
  have hcalls : ∀ {other ticket frame'},
      (s.seated name frame).calls other = some (.message ticket frame') ↔
        other = name ∧ ticket = s.queue.nextTicket ∧ frame' = frame ∨
          other ≠ name ∧ s.calls other = some (.message ticket frame') := by
    intro other ticket frame'
    simp only [State.seated, Function.update_apply]
    split_ifs with hother
    · simp [hother, eq_comm]
    · simp [hother]
  have hold : ∀ {other ticket frame'}, s.calls other = some (.message ticket frame') → other ≠ name := by
    rintro other ticket frame' hother rfl
    rw [hname] at hother
    cases hother
  have hnew : ∀ {other frame'}, s.calls other ≠ some (.message s.queue.nextTicket frame') := by
    intro other frame' hother
    have := h.tickets.lt_next (List.mem_append_right _ ((h.mem_line _).2 ⟨other, frame', hother⟩))
    exact lt_irrefl _ this
  refine ⟨h.tickets.enter, fun ticket => ?_, ?_, ?_, ?_, ?_⟩
  · show ticket ∈ s.queue.line ++ [s.queue.nextTicket] ↔ _
    rw [List.mem_append, h.mem_line, List.mem_singleton]
    constructor
    · rintro (⟨other, frame', hother⟩ | rfl)
      · exact ⟨other, frame', hcalls.2 (.inr ⟨hold hother, hother⟩)⟩
      · exact ⟨name, frame, hcalls.2 (.inl ⟨rfl, rfl, rfl⟩)⟩
    · rintro ⟨other, frame', hother⟩
      rcases hcalls.1 hother with ⟨-, rfl, -⟩ | ⟨-, hother⟩
      · exact .inr rfl
      · exact .inl ⟨other, frame', hother⟩
  · intro one other ticket frame₁ frame₂ hone hother
    obtain ⟨rfl, rfl, -⟩ | ⟨-, hheld⟩ := hcalls.1 hone <;>
      rcases hcalls.1 hother with ⟨rfl, heq, -⟩ | ⟨-, hheld'⟩
    · rfl
    · exact absurd hheld' hnew
    · exact absurd (heq ▸ hheld) hnew
    · exact h.own hheld hheld'
  · show _ = List.range (s.queue.nextTicket + 1)
    rw [List.map_append, h.asked_eq, List.range_succ]
    rfl
  · intro other ticket frame' hother
    rcases hcalls.1 hother with ⟨-, rfl, rfl⟩ | ⟨-, hother⟩
    · exact List.mem_append_right _ (List.mem_singleton.2 rfl)
    · exact List.mem_append_left _ (h.asked_call hother)
  · exact fun x hx => List.mem_append_left _ (h.admitted_subset hx)

/-- What a turn of a publish that waits does to the line. -/
theorem messageTurn_cases (q : Queue) (ticket : ℕ) (frame : Bytes) (late : Bool) :
    let turned := q.messageTurn ticket frame late
    turned.2.nextTicket = q.nextTicket ∧
      (turned.1 = .through ∧ q.line = ticket :: turned.2.line ∨
        (∃ refused, turned.1 = .refused refused) ∧ turned.2.line = q.line.filter (· ≠ ticket) ∨
        turned.1 = .waits ∧ turned.2.line = q.line) := by
  dsimp only
  unfold Queue.messageTurn
  split_ifs with hclosed hroom hlate
  · exact ⟨rfl, .inr (.inl ⟨⟨_, rfl⟩, rfl⟩)⟩
  · exact ⟨rfl, .inl ⟨rfl, (List.cons_head?_tail hroom.2).symm⟩⟩
  · exact ⟨rfl, .inr (.inl ⟨⟨_, rfl⟩, rfl⟩)⟩
  · exact ⟨rfl, .inr (.inr ⟨rfl, rfl⟩)⟩

/-- A publish that waits has a turn. -/
theorem turn (h : Queued s came went left) {name ticket : ℕ} {frame : Bytes}
    (hname : s.calls name = some (.message ticket frame)) (late : Bool) :
    let turn := (s.queue.messageTurn ticket frame late).1
    Queued (s.turn name (.message ticket frame) late) came (went ++ turn.admits ticket frame)
      (left ++ turn.refuses ticket) := by
  intro turn
  have hmem : ticket ∈ s.queue.line := (h.mem_line ticket).2 ⟨name, frame, hname⟩
  obtain ⟨hnext, hcases⟩ := messageTurn_cases s.queue ticket frame late
  -- Where the publish waits no more, its ticket is out of the line, and no other is.
  have hanswered (hwaits : turn ≠ .waits)
      (hline : ∀ other, other ∈ (s.queue.messageTurn ticket frame late).2.line ↔
        other ∈ s.queue.line ∧ other ≠ ticket)
      (htickets : Tickets (s.queue.messageTurn ticket frame late).2.line
        ((went ++ turn.admits ticket frame).map Prod.fst) (left ++ turn.refuses ticket)
        s.queue.nextTicket) : Queued (s.turn name (.message ticket frame) late) came
          (went ++ turn.admits ticket frame) (left ++ turn.refuses ticket) := by
    have hcalls : (s.turn name (.message ticket frame) late).calls =
        Function.update s.calls name none :=
      congrArg (Function.update s.calls name) (if_neg hwaits)
    have hothers : ∀ {other : ℕ} {call : Call},
        (s.turn name (.message ticket frame) late).calls other = some call ↔
          other ≠ name ∧ s.calls other = some call := by
      intro other call
      rw [hcalls, Function.update_apply]
      split_ifs with hother <;> simp [hother]
    refine ⟨hnext ▸ htickets, fun other => ?_, fun hone hother => ?_, hnext ▸ h.asked_eq, fun hother => ?_, ?_⟩
    · refine (hline other).trans ?_
      rw [h.mem_line]
      constructor
      · rintro ⟨⟨owner, frame', howner⟩, hne⟩
        refine ⟨owner, frame', hothers.2 ⟨?_, howner⟩⟩
        rintro rfl
        rw [hname] at howner
        cases howner
        exact hne rfl
      · rintro ⟨owner, frame', howner⟩
        obtain ⟨hne, hheld⟩ := hothers.1 howner
        refine ⟨⟨owner, frame', hheld⟩, ?_⟩
        rintro rfl
        exact hne (h.own hheld hname)
    · exact h.own (hothers.1 hone).2 (hothers.1 hother).2
    · exact h.asked_call (hothers.1 hother).2
    · refine List.append_subset.2 ⟨h.admitted_subset, fun x hx => ?_⟩
      rw [Turn.admits] at hx
      split_ifs at hx
      · rw [List.mem_singleton.1 hx]
        exact h.asked_call hname
      · cases hx
  rcases hcases with ⟨hthrough, hline⟩ | ⟨⟨refused, hrefused⟩, hline⟩ | ⟨hwaits, hline⟩
  · have htickets := h.tickets
    rw [hline] at htickets
    refine hanswered (by simp [turn, hthrough]) (fun other => ?_) ?_
    · have hsorted := htickets.line_sorted
      rw [hline, List.mem_cons]
      constructor
      · intro hother
        exact ⟨.inr hother, (List.rel_of_pairwise_cons hsorted hother).ne'⟩
      · rintro ⟨rfl | hother, hne⟩
        · exact absurd rfl hne
        · exact hother
    · simpa [turn, hthrough, Turn.admits, Turn.refuses] using htickets.serve
  · refine hanswered (by simp [turn, hrefused]) (fun other => ?_) ?_
    · rw [hline, List.mem_filter]
      simp
    · rw [hline]
      simpa [turn, hrefused, Turn.admits, Turn.refuses] using h.tickets.leave hmem
  · have hcalls : (s.turn name (.message ticket frame) late).calls = s.calls := by
      refine (congrArg (Function.update s.calls name) (if_pos hwaits)).trans ?_
      rw [← hname, Function.update_eq_self]
    simp only [turn, hwaits, Turn.admits, Turn.refuses, reduceCtorEq, if_false, or_true, if_true,
      List.append_nil]
    refine ⟨?_, ?_, hcalls ▸ h.own, hnext ▸ h.asked_eq, hcalls ▸ h.asked_call, h.admitted_subset⟩
    · exact hline ▸ hnext ▸ h.tickets
    · exact hcalls ▸ hline ▸ h.mem_line

/-- A turn of a subscription or of a flush is nothing to the line. -/
theorem turn_other (h : Queued s came went left) {name : ℕ} {call : Call}
    (hcall : ∀ ticket frame, call ≠ .message ticket frame)
    (hname : ∀ ticket frame, s.calls name ≠ some (.message ticket frame)) (late : Bool) :
    Queued (s.turn name call late) came went left := by
  have hqueue : (call.turn s.queue late).2.line = s.queue.line ∧
      (call.turn s.queue late).2.nextTicket = s.queue.nextTicket := by
    cases call with
    | message ticket frame => exact absurd rfl (hcall ticket frame)
    | control frame =>
      simp only [Call.turn, Queue.controlTurn]
      split_ifs <;> exact ⟨rfl, rfl⟩
    | flush => exact ⟨rfl, rfl⟩
  have hcalls : ∀ {other ticket frame},
      (s.turn name call late).calls other = some (.message ticket frame) ↔
        s.calls other = some (.message ticket frame) := by
    intro other ticket frame
    simp only [State.turn, Function.update_apply]
    by_cases hother : other = name
    · subst hother
      rw [if_pos rfl, iff_false_right (hname ticket frame)]
      split_ifs
      · exact fun heq => hcall ticket frame (Option.some.inj heq)
      · rintro ⟨⟩
    · rw [if_neg hother]
  refine ⟨?_, fun ticket => ?_, fun hone hother => h.own (hcalls.1 hone) (hcalls.1 hother), ?_,
    fun hother => h.asked_call (hcalls.1 hother), h.admitted_subset⟩
  · rw [State.turn_queue, hqueue.1, hqueue.2]
    exact h.tickets
  · rw [State.turn_queue, hqueue.1, h.mem_line]
    simp only [hcalls]
  · rw [State.turn_queue, hqueue.2]
    exact h.asked_eq

/-- The writer, and a `shut` or an `abandon`, are nothing to it either. -/
theorem congr (h : Queued s came went left) (hcalls : t.calls = s.calls)
    (hline : t.queue.line = s.queue.line) (hnext : t.queue.nextTicket = s.queue.nextTicket) :
    Queued t came went left :=
  ⟨by rw [hline, hnext]; exact h.tickets, by rw [hline, hcalls]; exact h.mem_line,
    by rw [hcalls]; exact h.own, by rw [hnext]; exact h.asked_eq, by rw [hcalls]; exact h.asked_call,
    h.admitted_subset⟩

end Queued

theorem line_of_not_ofCaller {act : Act} (hact : act.ofCaller = false) (hstep : step s act = some t) :
    t.queue.line = s.queue.line ∧ t.queue.nextTicket = s.queue.nextTicket := by
  have hdone : ∀ ok, (s.queue.done ok).line = s.queue.line ∧
      (s.queue.done ok).nextTicket = s.queue.nextTicket := fun ok => by
    unfold Queue.done
    split
    · exact ⟨rfl, rfl⟩
    · rename_i lane _
      cases lane <;> exact ⟨rfl, rfl⟩
  cases act with
  | putMessage | putControl | flush | wake => cases hact
  | take =>
    obtain ⟨-, rfl | ⟨held, frame, queue, htake, rfl⟩⟩ := step_take_frame hstep
    · exact ⟨rfl, rfl⟩
    · unfold Queue.take at htake
      split at htake <;> cases htake <;> exact ⟨rfl, rfl⟩
  | done ok =>
    simp only [step] at hstep
    split at hstep <;> cases hstep
    exact hdone ok
  | shut => cases hstep; exact ⟨rfl, rfl⟩
  | abandon => cases hstep; exact hdone false
  | exitShut =>
    simp only [step] at hstep
    split at hstep <;> cases hstep
    exact ⟨rfl, rfl⟩
  | exitAbandon =>
    simp only [step] at hstep
    split at hstep <;> cases hstep
    exact hdone false

/-- **Every step of any caller keeps the line.** -/
theorem Queued.step {came went : List (ℕ × Bytes)} {left : List ℕ} (h : Queued s came went left)
    {act : Act} (hstep : step s act = some t) :
    Queued t (came ++ askedIn s act) (went ++ admittedIn s act) (left ++ gaveUpIn s act) := by
  have hnone : turnOf s act = none → askedIn s act = [] → Queued t came went left →
      Queued t (came ++ askedIn s act) (went ++ admittedIn s act) (left ++ gaveUpIn s act) := by
    intro hturn hasked hsame
    simpa [admittedIn, gaveUpIn, hturn, hasked] using hsame
  cases act with
  | putMessage name frame late =>
    obtain ⟨hname, rfl⟩ := step_putMessage hstep
    have hadmitted : admittedIn s (.putMessage name frame late) = Turn.admits
        (s.queue.enter.2.messageTurn s.queue.nextTicket frame late).1 s.queue.nextTicket frame :=
      List.append_nil _
    have hgaveUp : gaveUpIn s (.putMessage name frame late) = Turn.refuses
        (s.queue.enter.2.messageTurn s.queue.nextTicket frame late).1 s.queue.nextTicket :=
      List.append_nil _
    rw [hadmitted, hgaveUp]
    exact (h.enter hname frame).turn (Function.update_self ..) late
  | putControl name frame late =>
    simp only [Outbox.step] at hstep
    split_ifs at hstep with hname
    cases hstep
    exact hnone rfl rfl (h.turn_other (by simp) (by simp [hname]) late)
  | flush name late =>
    simp only [Outbox.step] at hstep
    split_ifs at hstep with hname
    cases hstep
    exact hnone rfl rfl (h.turn_other (by simp) (by simp [hname]) late)
  | wake name late =>
    obtain ⟨call, hname, rfl⟩ := Option.map_eq_some_iff.1 hstep
    cases call with
    | message ticket frame =>
      simpa [askedIn, admittedIn, gaveUpIn, turnOf, hname] using h.turn hname late
    | control | flush =>
      exact hnone (by simp [turnOf, hname]) rfl (h.turn_other (by simp) (by simp [hname]) late)
  | take | done | shut | abandon | exitShut | exitAbandon =>
    obtain ⟨hline, hnext⟩ := line_of_not_ofCaller rfl hstep
    exact hnone rfl rfl (h.congr (entered_of_not_ofCaller rfl hstep).1 hline hnext)

/-! ### Every run -/

theorem queued_of_run {acts : List Act} (hrun : Machine.run step .new acts = some s) :
    let past := Machine.transitions step .new acts
    Queued s (asked past) (admitted past) (gaveUp past) := by
  have hnew : Queued .new (asked []) (admitted []) (gaveUp []) := queued_new
  have h := Machine.run_history
    (P := fun s past => Queued s (asked past) (admitted past) (gaveUp past))
    (fun s past act t h hstep => by
      simpa [asked, admitted, gaveUp] using h.step hstep) hnew hrun
  rwa [List.nil_append] at h

/-- A message that a step lets into its lane is the frame of the publish that has its turn. -/
theorem entered_message {act : Act} (hstep : step s act = some t) :
    entered .message s t = (admittedIn s act).map Prod.snd := by
  cases act with
  | putMessage name frame late =>
    obtain ⟨-, rfl⟩ := step_putMessage hstep
    refine (entered_turn (s.seated name frame) name _ late .message).trans ?_
    simp only [admittedIn, turnOf, Turn.admits, Option.toList_some, List.flatMap_singleton, Call.lane,
      and_true, Call.frames]
    split_ifs with hthrough hadmits hadmits
    · rfl
    · exact absurd hthrough hadmits
    · exact absurd hadmits hthrough
    · rfl
  | putControl name frame late =>
    simp only [step] at hstep
    split_ifs at hstep
    cases hstep
    rw [entered_turn]
    simp [Call.lane, admittedIn, turnOf]
  | flush name late =>
    simp only [step] at hstep
    split_ifs at hstep
    cases hstep
    rw [entered_turn]
    simp [Call.lane, admittedIn, turnOf]
  | wake name late =>
    obtain ⟨call, hname, rfl⟩ := Option.map_eq_some_iff.1 hstep
    rw [entered_turn]
    cases call with
    | message ticket frame =>
      simp only [admittedIn, turnOf, hname, Turn.admits, Option.toList_some, List.flatMap_singleton,
        Call.turn, Call.lane, and_true, Call.frames]
      split_ifs <;> rfl
    | control | flush => simp [Call.lane, admittedIn, turnOf, hname]
  | take | done | shut | abandon | exitShut | exitAbandon =>
    rw [(entered_of_not_ofCaller rfl hstep).2]
    rfl

/-- The frames of the message lane were those of the publishes let in. -/
theorem lined_of_run {acts : List Act} (hrun : Machine.run step .new acts = some s) :
    let past := Machine.transitions step .new acts
    Lined s .message ((admitted past).map Prod.snd) (ofLane .message (takenOut past)) := by
  have hnew : Lined .new .message ((admitted []).map Prod.snd) (ofLane .message (takenOut [])) :=
    ⟨rfl, [], fun _ => rfl, rfl⟩
  have h := Machine.run_history
    (P := fun s past => Lined s .message ((admitted past).map Prod.snd) (ofLane .message (takenOut past)))
    (fun s past act t h hstep => by
      have hnext := h.step hstep
      rw [entered_message hstep] at hnext
      simpa [admitted, takenOut] using hnext) hnew hrun
  rwa [List.nil_append] at h

/-- Publishes in the order of their tickets, all of which were asked for, are some of those asked for in
that order. -/
theorem Queued.sublist {came went : List (ℕ × Bytes)} {left : List ℕ} (h : Queued s came went left) :
    went.Sublist came := by
  have hwent : went.Pairwise (fun p q => p.1 < q.1) := List.pairwise_map.1 h.tickets.admitted_sorted
  have hcame : came.Pairwise (fun p q => p.1 < q.1) := by
    rw [← List.pairwise_map (f := Prod.fst) (R := (· < ·)), h.asked_eq]
    exact List.pairwise_lt_range
  have hnodup : went.Nodup := hwent.imp fun hlt => by rintro rfl; exact lt_irrefl _ hlt
  have : Std.Antisymm (fun p q : ℕ × Bytes => p.1 < q.1) := ⟨fun p q hpq hqp => absurd hqp hpq.asymm⟩
  exact List.sublist_of_subperm_of_pairwise (hnodup.subperm h.admitted_subset) hwent hcame

/-- Where a turn lets a publish in, all who asked before it were let in or gave up. -/
theorem Queued.of_lt {came went : List (ℕ × Bytes)} {left : List ℕ} (h : Queued s came went left)
    {ticket : ℕ} {frame : Bytes} {late : Bool}
    (hthrough : (s.queue.messageTurn ticket frame late).1 = .through) {earlier : ℕ}
    (hlt : earlier < ticket) : earlier ∈ went.map Prod.fst ∨ earlier ∈ left := by
  have htickets := h.tickets
  obtain ⟨-, ⟨-, hline⟩ | ⟨⟨refused, hrefused⟩, -⟩ | ⟨hwaits, -⟩⟩ :=
    messageTurn_cases s.queue ticket frame late
  · rw [hline] at htickets
    exact htickets.of_lt hlt
  · rw [hthrough] at hrefused
    cases hrefused
  · rw [hthrough] at hwaits
    cases hwaits

/-- **Room in the outbox goes in order of arrival**, in any interleaving of the callers, each of which
may be late at any turn.  The line is in order, and holds the tickets of the publishes that wait and no
others, each one's own.  The tickets are handed out in the order the publishes take the lock; each is in
the line, or was let in, or gave up.  A publish is let in only where all before it were let in or gave
up, and so the frames leave the lane in the order of those that asked. -/
theorem room_in_order {acts : List Act} (hrun : Machine.run step .new acts = some s) :
    let past := Machine.transitions step .new acts
    (s.queue.line.Pairwise (· < ·) ∧ (∀ ticket ∈ s.queue.line, ticket < s.queue.nextTicket) ∧
      (∀ ticket, ticket ∈ s.queue.line ↔
        ∃ name frame, s.calls name = some (.message ticket frame)) ∧
      ∀ name other ticket frame frame', s.calls name = some (.message ticket frame) →
        s.calls other = some (.message ticket frame') → name = other) ∧
    ((asked past).map Prod.fst = List.range s.queue.nextTicket ∧
      ((admitted past).map Prod.fst ++ s.queue.line ++ gaveUp past).Perm
        (List.range s.queue.nextTicket)) ∧
    (∀ act t ticket frame, step s act = some t → turnOf s act = some (ticket, frame, .through) →
      ∀ earlier < ticket, earlier ∈ (admitted past).map Prod.fst ∨ earlier ∈ gaveUp past) ∧
    (admitted past).Sublist (asked past) ∧
      ofLane .message (takenOut past) <+: (admitted past).map Prod.snd := by
  intro past
  have h := queued_of_run hrun
  obtain ⟨thrown, -, hlines⟩ := (lined_of_run hrun).lines
  refine ⟨⟨h.tickets.line_sorted, fun ticket hmem =>
    h.tickets.lt_next (List.mem_append_right _ hmem), h.mem_line, fun _ _ _ _ _ => h.own⟩,
    ⟨h.asked_eq, h.tickets.perm⟩, fun act t ticket frame hstep hturn earlier hlt => ?_, h.sublist, ?_⟩
  · cases act with
    | putMessage name frame late =>
      obtain ⟨hname, -⟩ := step_putMessage hstep
      simp only [turnOf, Option.some.injEq, Prod.mk.injEq] at hturn
      obtain ⟨rfl, rfl, hthrough⟩ := hturn
      exact (h.enter hname frame).of_lt hthrough hlt
    | wake name late =>
      obtain ⟨call, hname, -⟩ := Option.map_eq_some_iff.1 hstep
      cases call with
      | message ticket frame =>
        simp only [turnOf, hname, Option.some.injEq, Prod.mk.injEq] at hturn
        obtain ⟨rfl, rfl, hthrough⟩ := hturn
        exact h.of_lt hthrough hlt
      | control | flush => simp [turnOf, hname] at hturn
    | putControl | flush | take | done | shut | abandon | exitShut | exitAbandon => cases hturn
  · rw [hlines, List.append_assoc]
    exact List.prefix_append _ _

/-- Two publishes, of which the first one goes. -/
theorem room_in_order_of_two :
    let acts : List Act := [.putMessage 0 [7] false, .putMessage 1 [8] true, .take]
    let past := Machine.transitions step .new acts
    ofLane .message (takenOut past) = [[7]] ∧ asked past = [(0, [7]), (1, [8])] ∧
      (admitted past).Sublist (asked past) ∧
        ofLane .message (takenOut past) <+: (admitted past).map Prod.snd := by
  intro acts past
  obtain ⟨s, hrun⟩ : ∃ s, Machine.run step .new acts = some s := ⟨_, rfl⟩
  exact ⟨rfl, rfl, (room_in_order hrun).2.2.2⟩

end LcmBus.Outbox
