import LcmBus.Client.OutboxOrder
import LcmBus.Client.WriterEnds

/-!
# What a writer puts on the wire

Whole frames, and behind them at most a part of one more.

* `took` and `wrote`: the frames the writer took out of the outbox, and those counted as written;
* `Lined`: a lane is what was taken out of it, what waits in it, and what a `shut` threw away;
* `Stage`: how far the frame in hand has come, by the place of the thread in its loop;
* `OnWire.move`: no step of the thread or of anyone else puts a byte out of its place;
* `wire_is_whole_frames`: behind every run.
-/

namespace LcmBus.Outbox

/-! ### What the writer takes, and what is counted of it -/

/-- The frame the writer takes in a step, with its lane. -/
def tookIn (s t : State) : List (Lane × Bytes) :=
  match s.writer, t.writer with
  | .idle, .holding lane frame => [(lane, frame)]
  | _, _ => []

/-- The frame in hand that a step counts as written. -/
def wroteIn (s t : State) : List (Lane × Bytes) :=
  match s.writer with
  | .holding lane frame =>
    if (s.queue.of lane).wrote < (t.queue.of lane).wrote then [(lane, frame)] else []
  | _ => []

/-- The frames of one lane. -/
def ofLane (lane : Lane) (frames : List (Lane × Bytes)) : List Bytes :=
  (frames.filter (·.1 = lane)).map Prod.snd

variable {s t : State} {lane : Lane}

@[simp] theorem ofLane_nil : ofLane lane [] = [] := rfl

@[simp] theorem ofLane_append (frames frames' : List (Lane × Bytes)) :
    ofLane lane (frames ++ frames') = ofLane lane frames ++ ofLane lane frames' := by
  simp [ofLane]

theorem ofLane_singleton (held : Lane) (frame : Bytes) :
    ofLane lane [(held, frame)] = if held = lane then [frame] else [] := by
  by_cases h : held = lane <;> simp [ofLane, h]

theorem tookIn_of_writer_eq (h : t.writer = s.writer) : tookIn s t = [] := by
  rw [tookIn, h]
  cases s.writer <;> rfl

theorem wroteIn_of_wrote_eq (h : ∀ lane, (t.queue.of lane).wrote = (s.queue.of lane).wrote) :
    wroteIn s t = [] := by
  unfold wroteIn
  split
  · rw [h, if_neg (lt_irrefl _)]
  · rfl

/-- The callers leave the hand of the writer, and what is counted as written, as they are. -/
theorem hand_of_ofCaller {act : Act} (hact : act.ofCaller) (hstep : step s act = some t) :
    t.writer = s.writer ∧ t.queue.inHand = s.queue.inHand ∧
      ∀ lane, (t.queue.of lane).wrote = (s.queue.of lane).wrote := by
  obtain ⟨line, nextTicket, name, call, late, rfl⟩ := step_ofCaller hact hstep
  refine ⟨rfl, call.turn_inHand _ late, fun lane => (call.turn_lane _ late lane).1.trans ?_⟩
  cases lane <;> rfl

/-- The count of what was written rises by the frame in hand, in its lane. -/
theorem wrote_step (h : HandAgrees s) {act : Act} (hstep : Outbox.step s act = some t)
    (lane : Lane) :
    (t.queue.of lane).wrote = (s.queue.of lane).wrote + (ofLane lane (wroteIn s t)).length := by
  have hsame : (∀ lane, (t.queue.of lane).wrote = (s.queue.of lane).wrote) →
      (t.queue.of lane).wrote = (s.queue.of lane).wrote + (ofLane lane (wroteIn s t)).length :=
    fun h => by rw [wroteIn_of_wrote_eq h, h]; rfl
  cases act with
  | putMessage | putControl | flush | wake => exact hsame (hand_of_ofCaller rfl hstep).2.2
  | take =>
    obtain ⟨hidle, rfl | ⟨held, frame, queue, htake, rfl⟩⟩ := step_take_frame hstep
    · exact hsame fun _ => rfl
    · exact hsame fun lane => congrArg Sent.wrote (Queue.take_of htake lane)
  | done ok =>
    simp only [Outbox.step] at hstep
    split at hstep <;> cases hstep
    rename_i held frame hholding
    rcases h held frame hholding with hnone | hsome
    · exact hsame fun lane => by simp [Queue.done_wrote, hnone]
    · cases ok with
      | false => exact hsame fun lane => by simp [Queue.done_wrote]
      | true =>
        have hwrote : wroteIn s { s with queue := s.queue.done true, writer := .idle } =
            [(held, frame)] := by simp [wroteIn, hholding, Queue.done_wrote, hsome]
        rw [if_pos rfl, hwrote, ofLane_singleton, Queue.done_wrote, hsome]
        by_cases hlane : held = lane <;> simp [hlane]
  | shut => cases hstep; exact hsame s.queue.shut_wrote
  | abandon => cases hstep; exact hsame fun lane => by simp [Queue.abandon_eq_done, Queue.done_wrote]
  | exitShut =>
    simp only [Outbox.step] at hstep
    split at hstep <;> cases hstep
    exact hsame s.queue.shut_wrote
  | exitAbandon =>
    simp only [Outbox.step] at hstep
    split at hstep <;> cases hstep
    exact hsame fun lane => by simp [Queue.abandon_eq_done, Queue.done_wrote]

/-- A lane in every state: what came in was taken, or waits, or a `shut` threw it away. -/
structure Lined (s : State) (lane : Lane) (came took : List Bytes) : Prop where
  taken_eq : (s.queue.of lane).taken = came.length
  lines : ∃ thrown, (s.queue.isOpen = true → thrown = []) ∧
    came = took ++ s.queue.frames lane ++ thrown

namespace Lined

variable {came took : List Bytes}

theorem turn (h : Lined s lane came took) (name : ℕ) (call : Call) (late : Bool) :
    Lined (s.turn name call late) lane (came ++ entered lane s (s.turn name call late)) took := by
  obtain ⟨thrown, hthrown, hlines⟩ := h.lines
  obtain ⟨-, ⟨htaken, hframes⟩ | ⟨frame, hopen, htaken, hframes⟩⟩ := call.turn_lane s.queue late lane
  · rw [entered_of_taken_eq htaken, List.append_nil]
    refine ⟨htaken.trans h.taken_eq, thrown, fun hopen => hthrown ?_, ?_⟩
    · rwa [State.turn_queue, call.turn_isOpen] at hopen
    · rw [State.turn_queue, hframes, hlines]
  · rw [entered_of_taken_lt (by rw [State.turn_queue, htaken]; omega) hframes]
    refine ⟨by simp [htaken, h.taken_eq], [], fun _ => rfl, ?_⟩
    rw [hlines, hthrown hopen, State.turn_queue, hframes]
    simp

/-- Where a step changes no line and counts nothing in, only the queue it closes may differ. -/
theorem congr (h : Lined s lane came took) (htaken : (t.queue.of lane).taken = (s.queue.of lane).taken)
    (hframes : t.queue.frames lane = s.queue.frames lane) (hopen : t.queue.isOpen = s.queue.isOpen) :
    Lined t lane (came ++ entered lane s t) took := by
  obtain ⟨thrown, hthrown, hlines⟩ := h.lines
  rw [entered_of_taken_eq htaken, List.append_nil]
  exact ⟨htaken.trans h.taken_eq, thrown, fun h => hthrown (hopen.symm.trans h), by rw [hframes, hlines]⟩

theorem shut (h : Lined s lane came took) (hqueue : t.queue = s.queue.shut) :
    Lined t lane (came ++ entered lane s t) took := by
  obtain ⟨thrown, -, hlines⟩ := h.lines
  have htaken : (t.queue.of lane).taken = (s.queue.of lane).taken := by
    rw [hqueue, Queue.shut_taken]
  rw [entered_of_taken_eq htaken, List.append_nil]
  refine ⟨htaken.trans h.taken_eq, s.queue.frames lane ++ thrown, fun hopen => ?_, ?_⟩
  · rw [hqueue] at hopen
    cases hopen
  · rw [hqueue, Queue.shut_frames, hlines]
    simp

/-- The writer takes the first frame of a lane. -/
theorem take (h : Lined s lane came took) (hidle : s.writer = .idle) {held : Lane} {frame : Bytes}
    {queue : Queue} (htake : s.queue.take = (some (held, frame), queue)) :
    let t : State := { s with queue, writer := .holding held frame }
    Lined t lane (came ++ entered lane s t) (took ++ ofLane lane (tookIn s t)) := by
  intro t
  obtain ⟨thrown, hthrown, hlines⟩ := h.lines
  obtain ⟨hfirst, hothers, -⟩ := s.queue.take_frames htake
  have hof := Queue.take_of htake lane
  have hopen : queue.isOpen = s.queue.isOpen := by
    rcases s.queue.take_cases with ⟨hnone, -⟩ | ⟨_, _, -, -, -, hopen, -⟩
    · rw [htake] at hnone
      cases hnone
    · rwa [htake] at hopen
  have htook : tookIn s t = [(held, frame)] := by simp [tookIn, hidle, t]
  rw [entered_of_taken_eq (congrArg Sent.taken hof), List.append_nil, htook, ofLane_singleton]
  refine ⟨(congrArg Sent.taken hof).trans h.taken_eq, thrown, fun h => hthrown (hopen.symm.trans h),
    hlines.trans ?_⟩
  by_cases hlane : held = lane
  · subst hlane
    simp [hfirst, t]
  · simp [hlane, hothers lane (Ne.symm hlane), t]

/-- **Every step leaves a lane in line.** -/
theorem step (h : Lined s lane came took) {act : Act} (hstep : Outbox.step s act = some t) :
    Lined t lane (came ++ entered lane s t) (took ++ ofLane lane (tookIn s t)) := by
  cases act with
  | putMessage | putControl | flush | wake =>
    rw [tookIn_of_writer_eq (hand_of_ofCaller rfl hstep).1, ofLane_nil, List.append_nil]
    obtain ⟨line, nextTicket, name, call, late, rfl⟩ := step_ofCaller rfl hstep
    have hline : Lined { s with queue := { s.queue with line, nextTicket } } lane came took := by
      cases lane <;> exact ⟨h.taken_eq, h.lines⟩
    cases lane <;> exact hline.turn name call late
  | take =>
    obtain ⟨hidle, rfl | ⟨held, frame, queue, htake, rfl⟩⟩ := step_take_frame hstep
    · simpa [tookIn, hidle] using h.congr (t := t) rfl rfl rfl
    · exact h.take hidle htake
  | done ok =>
    simp only [Outbox.step] at hstep
    split at hstep <;> cases hstep
    rename_i held frame hholding
    simpa [tookIn, hholding] using h.congr (s.queue.done_taken lane ok) (s.queue.done_frames lane ok)
      (s.queue.done_lines ok).2.2.1
  | shut =>
    have htook : tookIn s t = [] := tookIn_of_writer_eq (by cases hstep; rfl)
    rw [htook, ofLane_nil, List.append_nil]
    cases hstep
    exact h.shut rfl
  | abandon =>
    have htook : tookIn s t = [] := tookIn_of_writer_eq (by cases hstep; rfl)
    rw [htook, ofLane_nil, List.append_nil]
    cases hstep
    exact h.congr (s.queue.done_taken lane false) (s.queue.done_frames lane false)
      (s.queue.done_lines false).2.2.1
  | exitShut =>
    simp only [Outbox.step] at hstep
    split at hstep <;> cases hstep
    simpa [tookIn] using h.shut rfl
  | exitAbandon =>
    simp only [Outbox.step] at hstep
    split at hstep <;> cases hstep
    simpa [tookIn] using h.congr (s.queue.done_taken lane false) (s.queue.done_frames lane false)
      (s.queue.done_lines false).2.2.1

end Lined

end LcmBus.Outbox

namespace LcmBus.Relay

open Outbox

/-! ### The moves of a link -/

namespace Link

/-- A step of the thread or of a caller, with the flag as it is then, or what another thread does to
a connection that it ends. -/
inductive Move
  | own (running : Bool) (act : Act)
  | shut
  | hangUp
  deriving DecidableEq, Repr

def move (l : Link) : Move → Option Link
  | .own running act => Link.step running l act
  | .shut => some l.shut
  | .hangUp => some l.hangUp

variable {l t : Link}

theorem Linked.move (h : Linked l) {m : Move} (hmove : l.move m = some t) : Linked t := by
  cases m with
  | own running act => exact h.step hmove
  | shut => cases hmove; exact h.shut
  | hangUp => cases hmove; exact h.hangUp

/-- What a link went through. -/
abbrev Past := List (Link × Move × Link)

/-- The frames the writer took, in the order `take` gave them. -/
def took (past : Past) : List (Lane × Bytes) :=
  past.flatMap fun (s, _, t) => tookIn s.outbox t.outbox

/-- The frames counted as written. -/
def wrote (past : Past) : List (Lane × Bytes) :=
  past.flatMap fun (s, _, t) => wroteIn s.outbox t.outbox

/-- The frames let into a lane. -/
def came (lane : Lane) (past : Past) : List Bytes :=
  past.flatMap fun (s, _, t) => entered lane s.outbox t.outbox

/-- A panic took the thread out of its loop. -/
def Panicked (past : Past) : Prop := ∃ entry ∈ past, ∃ running, entry.2.1 = .own running .panic

@[simp] theorem took_concat (past : Past) (m : Move) :
    took (past ++ [(l, m, t)]) = took past ++ tookIn l.outbox t.outbox := by simp [took]

@[simp] theorem wrote_concat (past : Past) (m : Move) :
    wrote (past ++ [(l, m, t)]) = wrote past ++ wroteIn l.outbox t.outbox := by simp [wrote]

@[simp] theorem came_concat (lane : Lane) (past : Past) (m : Move) :
    came lane (past ++ [(l, m, t)]) = came lane past ++ entered lane l.outbox t.outbox := by
  simp [came]

theorem Panicked.concat {past : Past} (h : Panicked past) (entry : Link × Move × Link) :
    Panicked (past ++ [entry]) :=
  h.imp fun _ ⟨hmem, hpanic⟩ => ⟨List.mem_append_left _ hmem, hpanic⟩

/-! ### How far the frame in hand has come -/

/-- The writer has this frame in hand, and it is the one taken behind those written. -/
def InHand (s : Outbox.State) (frame : Bytes) (further : List (Lane × Bytes)) : Prop :=
  ∃ lane, s.writer = .holding lane frame ∧ s.queue.inHand = some lane ∧ further = [(lane, frame)]

/-- Of the frame taken behind those written, `part` is on the wire.  Only a panic comes between the
last byte of a frame and its count. -/
def Stage (panicked : Prop) (s : Outbox.State) (further : List (Lane × Bytes)) (part : Bytes) :
    Loop → Prop
  | .top | .taking => further = [] ∧ part = [] ∧ s.queue.inHand = none
  | .sending rest => InHand s (part ++ rest) further
  | .writing rest => InHand s (part ++ rest) further ∧ rest ≠ []
  | .finishing true => InHand s part further
  | .finishing false => ∃ rest, InHand s (part ++ rest) further ∧ rest ≠ []
  | .leaving | .abandoning | .gone => (further = [] ∧ part = [] ∧ s.queue.inHand = none) ∨
      ∃ lane rest, further = [(lane, part ++ rest)] ∧ (rest = [] → panicked) ∧
        (s.queue.inHand = none ∨ s.queue.inHand = some lane)

/-- The wire holds the frames that were written, and a part of the one taken behind them. -/
structure OnWire (l : Link) (past : Past) (further : List (Lane × Bytes)) (part : Bytes) : Prop where
  took_eq : took past = wrote past ++ further
  wire_eq : l.wire = ((wrote past).map Prod.snd).flatten ++ part
  stage : Stage (Panicked past) l.outbox further part l.loop

theorem onWire_new : OnWire .new [] [] [] := ⟨rfl, rfl, rfl, rfl, rfl⟩

/-- What a `write` of the socket took is the front of what was left. -/
theorem write_wire {running : Bool} {wrote : Wrote} {stalled : Bool}
    (hstep : Link.step running l (.write wrote stalled) = some t) :
    ∃ sent rest loop, l.loop = .writing (sent ++ rest) ∧
      t = { l with loop, wire := l.wire ++ sent } ∧
      (loop = .sending rest ∨ loop = .finishing false ∧ (sent = [] ∨ rest ≠ [])) := by
  have hafter : ∀ rest : Bytes, afterWrite rest stalled = .sending rest ∨
      afterWrite rest stalled = .finishing false ∧ rest ≠ [] := fun rest => by
    unfold afterWrite
    split_ifs with hrest
    · exact .inr ⟨rfl, hrest.1⟩
    · exact .inl rfl
  simp only [Link.step] at hstep
  split at hstep
  · rename_i rest hloop
    cases hstep
    exact ⟨[], rest, _, hloop, by simp, .inr ⟨rfl, .inl rfl⟩⟩
  · rename_i rest hloop
    cases hstep
    exact ⟨[], rest, _, hloop, by simp, .inr ⟨rfl, .inl rfl⟩⟩
  · rename_i rest count _ hloop
    split_ifs at hstep
    cases hstep
    refine ⟨rest.take count, rest.drop count, _, by rw [List.take_append_drop]; exact hloop, rfl, ?_⟩
    exact (hafter _).imp_right fun h => ⟨h.1, .inr h.2⟩
  · rename_i rest hloop
    split_ifs at hstep
    cases hstep
    refine ⟨[], rest, afterWrite rest stalled, hloop, by simp, ?_⟩
    exact (hafter rest).imp_right fun h => ⟨h.1, .inl rfl⟩
  · cases hstep

namespace OnWire

variable {past : Past} {further : List (Lane × Bytes)} {part : Bytes}

/-- A move that takes no frame and counts none may put more of the frame in hand on the wire. -/
theorem extend (h : OnWire l past further part) (m : Move) (sent : Bytes)
    (htook : tookIn l.outbox t.outbox = []) (hwrote : wroteIn l.outbox t.outbox = [])
    (hwire : t.wire = l.wire ++ sent)
    (hstage : Stage (Panicked (past ++ [(l, m, t)])) t.outbox further (part ++ sent) t.loop) :
    OnWire t (past ++ [(l, m, t)]) further (part ++ sent) := by
  refine ⟨?_, ?_, hstage⟩
  · rw [took_concat, wrote_concat, htook, hwrote, List.append_nil, List.append_nil, h.took_eq]
  · rw [wrote_concat, hwrote, List.append_nil, hwire, h.wire_eq, List.append_assoc]

end OnWire

/-- A stage is a matter of the writer, of its hand, and of where it is. -/
theorem Stage.congr {panicked panicked' : Prop} {s s' : Outbox.State}
    {further : List (Lane × Bytes)} {part : Bytes} {loop : Loop} (h : Stage panicked s further part loop)
    (hpanicked : panicked → panicked') (hwriter : s'.writer = s.writer)
    (hhand : s'.queue.inHand = s.queue.inHand) : Stage panicked' s' further part loop := by
  cases loop with
  | top | taking | sending | writing => simpa only [Stage, InHand, hwriter, hhand] using h
  | finishing went => cases went <;> simpa only [Stage, InHand, hwriter, hhand] using h
  | leaving | abandoning | gone =>
    simp only [Stage, hhand] at h ⊢
    exact h.imp_right fun ⟨lane, rest, hfurther, hrest, hlane⟩ =>
      ⟨lane, rest, hfurther, fun h => hpanicked (hrest h), hlane⟩

/-- Where neither the thread nor its hand moves, the stage is the same. -/
theorem OnWire.still {past : Past} {further : List (Lane × Bytes)} {part : Bytes}
    (h : OnWire l past further part) (m : Move) (hloop : t.loop = l.loop) (hwire : t.wire = l.wire)
    (hwriter : t.outbox.writer = l.outbox.writer)
    (hhand : t.outbox.queue.inHand = l.outbox.queue.inHand)
    (hwrote : ∀ lane, (t.outbox.queue.of lane).wrote = (l.outbox.queue.of lane).wrote) :
    OnWire t (past ++ [(l, m, t)]) further part := by
  have hnext := h.extend (t := t) m [] (tookIn_of_writer_eq hwriter) (wroteIn_of_wrote_eq hwrote)
    (by simp [hwire]) (by
      rw [hloop, List.append_nil]
      exact h.stage.congr (Panicked.concat · _) hwriter hhand)
  rwa [List.append_nil] at hnext

/-- **No step of the thread, and nothing the others do, puts a byte out of its place.** -/
theorem OnWire.move {past : Past} {further : List (Lane × Bytes)} {part : Bytes}
    (h : OnWire l past further part) (hlinked : Linked l) {m : Move} (hmove : l.move m = some t) :
    ∃ further part, OnWire t (past ++ [(l, m, t)]) further part := by
  have hstage := h.stage
  have hagrees := hlinked.agrees
  -- A step of the thread alone leaves the outbox and the wire as they are.
  have hthread : ∀ loop writable, t = { l with loop, writable } →
      Stage (Panicked (past ++ [(l, m, t)])) l.outbox further part loop →
      ∃ further part, OnWire t (past ++ [(l, m, t)]) further part := fun loop writable ht hnext => by
    subst ht
    refine ⟨further, part ++ [], h.extend m [] (tookIn_of_writer_eq rfl) (wroteIn_of_wrote_eq fun _ => rfl)
      (by simp) ?_⟩
    rwa [List.append_nil]
  cases m with
  | shut =>
    cases hmove
    exact ⟨further, part, h.still _ rfl rfl rfl rfl (l.outbox.queue.shut_wrote ·)⟩
  | hangUp =>
    cases hmove
    exact ⟨further, part, h.still _ rfl rfl rfl rfl fun _ => rfl⟩
  | own running act =>
    change Link.step running l act = some t at hmove
    cases act with
    | call act =>
      simp only [Link.step] at hmove
      split_ifs at hmove with hcaller
      obtain ⟨outbox, houtbox, rfl⟩ := Option.map_eq_some_iff.1 hmove
      obtain ⟨hwriter, hhand, hwrote⟩ := hand_of_ofCaller hcaller houtbox
      exact ⟨further, part, h.still _ rfl rfl hwriter hhand hwrote⟩
    | look =>
      simp only [Link.step] at hmove
      split at hmove <;> cases hmove
      rename_i hloop
      rw [hloop] at hstage
      refine hthread _ _ rfl ?_
      cases running
      · exact .inl hstage
      · exact hstage
    | take =>
      simp only [Link.step] at hmove
      split at hmove
      · rename_i hloop
        obtain ⟨outbox, houtbox, rfl⟩ := Option.map_eq_some_iff.1 hmove
        rw [hloop] at hstage
        obtain ⟨rfl, rfl, hhand⟩ := hstage
        obtain ⟨hidle, rfl | ⟨held, frame, queue, htake, rfl⟩⟩ := step_take_frame houtbox
        · refine hthread .top l.writable ?_ ⟨rfl, rfl, hhand⟩
          simp [hidle]
        · obtain ⟨-, -, hhand'⟩ := l.outbox.queue.take_frames htake
          refine ⟨[(held, frame)], [], ?_, ?_, held, rfl, hhand', rfl⟩
          · simp [h.took_eq, wroteIn, tookIn, hidle]
          · simp [h.wire_eq, wroteIn, hidle]
      · cases hmove
    | check =>
      simp only [Link.step] at hmove
      split at hmove <;> cases hmove
      rename_i rest hloop
      rw [hloop] at hstage
      refine hthread _ _ rfl ?_
      by_cases hrest : rest = []
      · subst hrest
        simpa [Stage] using hstage
      · cases running
        · simpa [hrest] using ⟨rest, hstage, hrest⟩
        · simpa [hrest] using ⟨hstage, hrest⟩
    | write wrote stalled =>
      obtain ⟨sent, rest, loop, hloop, rfl, hnext⟩ := write_wire hmove
      rw [hloop] at hstage
      obtain ⟨hinHand, hrest⟩ := hstage
      refine ⟨further, part ++ sent, h.extend _ sent (tookIn_of_writer_eq rfl)
        (wroteIn_of_wrote_eq fun _ => rfl) rfl ?_⟩
      rw [← List.append_assoc] at hinHand
      rcases hnext with rfl | ⟨rfl, hleft⟩
      · exact hinHand
      · refine ⟨rest, hinHand, ?_⟩
        rcases hleft with rfl | hleft
        · exact hrest
        · exact hleft
    | finish =>
      simp only [Link.step] at hmove
      split at hmove
      · rename_i went hloop
        obtain ⟨outbox, houtbox, rfl⟩ := Option.map_eq_some_iff.1 hmove
        rw [hloop] at hstage
        cases went with
        | true =>
          obtain ⟨lane, hwriter, hhand, rfl⟩ := hstage
          simp only [Outbox.step, hwriter, Option.some.injEq] at houtbox
          subst houtbox
          have hcount : wroteIn l.outbox { l.outbox with
              queue := l.outbox.queue.done true, writer := .idle } = [(lane, part)] := by
            simp [wroteIn, hwriter, Queue.done_wrote, hhand]
          refine ⟨[], [], ?_, ?_, rfl, rfl, Queue.done_inHand true⟩
          · simp [h.took_eq, tookIn, hwriter, hcount]
          · simp [h.wire_eq, hcount]
        | false =>
          obtain ⟨rest, ⟨lane, hwriter, hhand, rfl⟩, hrest⟩ := hstage
          simp only [Outbox.step, hwriter, Option.some.injEq] at houtbox
          subst houtbox
          refine ⟨_, part ++ [], h.extend _ [] ?_ (wroteIn_of_wrote_eq fun lane => ?_) (by simp) ?_⟩
          · simp [tookIn, hwriter]
          · simp [Queue.done_wrote]
          · refine .inr ⟨lane, rest, by simp, fun h => absurd h hrest, .inl ?_⟩
            exact l.outbox.queue.done_inHand false
      · cases hmove
    | exitShut =>
      simp only [Link.step] at hmove
      split at hmove
      · rename_i hloop
        obtain ⟨outbox, houtbox, rfl⟩ := Option.map_eq_some_iff.1 hmove
        rw [hloop] at hstage
        simp only [Outbox.step] at houtbox
        split at houtbox <;> cases houtbox
        refine ⟨further, part ++ [], h.extend _ [] (by simp [tookIn])
          (wroteIn_of_wrote_eq (l.outbox.queue.shut_wrote ·)) (by simp) ?_⟩
        rw [List.append_nil]
        rcases hstage with htop | ⟨lane, rest, hfurther, hrest, hlane⟩
        · exact .inl htop
        · exact .inr ⟨lane, rest, hfurther, fun h => (hrest h).concat _, hlane⟩
      · cases hmove
    | exitAbandon =>
      simp only [Link.step] at hmove
      split at hmove
      · rename_i hloop
        obtain ⟨outbox, houtbox, rfl⟩ := Option.map_eq_some_iff.1 hmove
        rw [hloop] at hstage
        simp only [Outbox.step] at houtbox
        split at houtbox <;> cases houtbox
        have hhand : l.outbox.queue.abandon.inHand = none := l.outbox.queue.done_inHand false
        refine ⟨further, part ++ [], h.extend _ [] (by simp [tookIn])
          (wroteIn_of_wrote_eq fun lane => by simp [Queue.abandon_eq_done, Queue.done_wrote])
          (by simp) ?_⟩
        rw [List.append_nil]
        rcases hstage with ⟨hfurther, hpart, -⟩ | ⟨lane, rest, hfurther, hrest, -⟩
        · exact .inl ⟨hfurther, hpart, hhand⟩
        · exact .inr ⟨lane, rest, hfurther, fun h => (hrest h).concat _, .inl hhand⟩
      · cases hmove
    | panic =>
      simp only [Link.step] at hmove
      split_ifs at hmove with hleft
      cases hmove
      refine hthread .leaving false rfl ?_
      have hpanicked : Panicked (past ++ [(l, .own running .panic, { l with
          loop := .leaving, writable := false })]) :=
        ⟨_, List.mem_append_right _ (List.mem_singleton.2 rfl), running, rfl⟩
      have hcut : ∀ rest, InHand l.outbox (part ++ rest) further →
          Stage (Panicked (past ++ [(l, .own running .panic, { l with
            loop := .leaving, writable := false })])) l.outbox further part .leaving := by
        rintro rest ⟨lane, -, hhand, rfl⟩
        exact .inr ⟨lane, rest, rfl, fun _ => hpanicked, .inr hhand⟩
      cases hloop : l.loop with
      | top | taking => rw [hloop] at hstage; exact .inl hstage
      | sending rest => rw [hloop] at hstage; exact hcut rest hstage
      | writing rest => rw [hloop] at hstage; exact hcut rest hstage.1
      | finishing went =>
        rw [hloop] at hstage
        cases went with
        | true => exact hcut [] (by rw [List.append_nil]; exact hstage)
        | false =>
          obtain ⟨rest, hinHand, -⟩ := hstage
          exact hcut rest hinHand
      | leaving | abandoning | gone => simp [hloop, Loop.left] at hleft

/-! ### Every run -/

/-- The thread has given the frame in hand up, or is out of its loop. -/
def GivenUp (l : Link) : Prop := l.loop = .finishing false ∨ l.loop.left = true

/-- Once a frame is given up no byte is put on the wire. -/
theorem GivenUp.move (h : l.GivenUp) {m : Move} (hmove : l.move m = some t) :
    t.GivenUp ∧ t.wire = l.wire := by
  cases m with
  | shut => cases hmove; exact ⟨h, rfl⟩
  | hangUp => cases hmove; exact ⟨h, rfl⟩
  | own running act =>
    change Link.step running l act = some t at hmove
    cases act with
    | call act =>
      simp only [Link.step] at hmove
      split_ifs at hmove
      obtain ⟨outbox, -, rfl⟩ := Option.map_eq_some_iff.1 hmove
      exact ⟨h, rfl⟩
    | look | take | check =>
      simp only [Link.step] at hmove
      split at hmove
      · rename_i hloop
        simp [GivenUp, hloop, Loop.left] at h
      · cases hmove
    | write wrote stalled =>
      obtain ⟨sent, rest, loop, hloop, -⟩ := write_wire hmove
      simp [GivenUp, hloop, Loop.left] at h
    | finish =>
      simp only [Link.step] at hmove
      split at hmove
      · rename_i went hloop
        have hwent : went = false := by simpa [GivenUp, hloop, Loop.left] using h
        obtain ⟨outbox, -, rfl⟩ := Option.map_eq_some_iff.1 hmove
        exact ⟨.inr (by simp [hwent, Loop.left]), rfl⟩
      · cases hmove
    | exitShut | exitAbandon =>
      simp only [Link.step] at hmove
      split at hmove
      · obtain ⟨outbox, -, rfl⟩ := Option.map_eq_some_iff.1 hmove
        exact ⟨.inr rfl, rfl⟩
      · cases hmove
    | panic =>
      simp only [Link.step] at hmove
      split_ifs at hmove
      cases hmove
      exact ⟨.inr rfl, rfl⟩

/-- What a move does to the outbox is what one call of it does, or nothing. -/
theorem move_outbox {m : Move} (hmove : l.move m = some t) :
    t.outbox = l.outbox ∨ ∃ act, Outbox.step l.outbox act = some t.outbox := by
  cases m with
  | shut => cases hmove; exact .inr ⟨.shut, rfl⟩
  | hangUp => cases hmove; exact .inl rfl
  | own running act =>
    change Link.step running l act = some t at hmove
    cases act with
    | call act =>
      simp only [Link.step] at hmove
      split_ifs at hmove
      obtain ⟨outbox, houtbox, rfl⟩ := Option.map_eq_some_iff.1 hmove
      exact .inr ⟨act, houtbox⟩
    | take | finish | exitShut | exitAbandon =>
      simp only [Link.step] at hmove
      split at hmove
      · obtain ⟨outbox, houtbox, rfl⟩ := Option.map_eq_some_iff.1 hmove
        exact .inr ⟨_, houtbox⟩
      · cases hmove
    | look | check =>
      simp only [Link.step] at hmove
      split at hmove <;> cases hmove
      exact .inl rfl
    | write wrote stalled =>
      obtain ⟨_, _, _, -, rfl, -⟩ := write_wire hmove
      exact .inl rfl
    | panic =>
      simp only [Link.step] at hmove
      split_ifs at hmove
      cases hmove
      exact .inl rfl

/-- What holds of a link and of all that it went through. -/
structure Sound (l : Link) (past : Past) : Prop where
  linked : Linked l
  hand : HandAgrees l.outbox
  lined : ∀ lane, Lined l.outbox lane (came lane past) (ofLane lane (took past))
  counted : ∀ lane, (l.outbox.queue.of lane).wrote = (ofLane lane (wrote past)).length
  onWire : ∃ further part, OnWire l past further part

theorem sound_new : Sound .new [] where
  linked := linked_new
  hand := by rintro lane frame ⟨⟩
  lined lane := by cases lane <;> exact ⟨rfl, [], fun _ => rfl, rfl⟩
  counted lane := by cases lane <;> rfl
  onWire := ⟨[], [], onWire_new⟩

theorem Sound.move {past : Past} (h : Sound l past) {m : Move} (hmove : l.move m = some t) :
    Sound t (past ++ [(l, m, t)]) := by
  obtain ⟨further, part, honWire⟩ := h.onWire
  rcases move_outbox hmove with hsame | ⟨act, houtbox⟩
  · have htook : tookIn l.outbox t.outbox = [] := tookIn_of_writer_eq (by rw [hsame])
    have hwrote : wroteIn l.outbox t.outbox = [] := wroteIn_of_wrote_eq (by simp [hsame])
    refine ⟨h.linked.move hmove, by rw [hsame]; exact h.hand, fun lane => ?_, fun lane => ?_,
      honWire.move h.linked hmove⟩
    · rw [came_concat, took_concat, htook, List.append_nil]
      exact (h.lined lane).congr (by rw [hsame]) (by rw [hsame]) (by rw [hsame])
    · rw [wrote_concat, hwrote, List.append_nil, hsame, h.counted lane]
  · refine ⟨h.linked.move hmove, h.hand.step houtbox, fun lane => ?_, fun lane => ?_,
      honWire.move h.linked hmove⟩
    · rw [came_concat, took_concat, ofLane_append]
      exact (h.lined lane).step houtbox
    · rw [wrote_concat, ofLane_append, List.length_append, wrote_step h.hand houtbox lane,
        h.counted lane]

/-- The frame taken behind those that were written: one at most, of which a part is on the wire, and
all of it where only its count is missing.  Out of the hand of the writer it is given up. -/
theorem OnWire.further_cases {past : Past} {further : List (Lane × Bytes)} {part : Bytes}
    (h : OnWire l past further part) :
    further.length ≤ 1 ∧ part <+: (further.map Prod.snd).flatten ∧
      (part = (further.map Prod.snd).flatten →
        further = [] ∨ l.loop = .sending [] ∨ l.loop = .finishing true ∨ Panicked past) ∧
      (further ≠ [] → l.outbox.queue.inHand = none → l.GivenUp) := by
  have hstage := h.stage
  have hinHand : ∀ rest, InHand l.outbox (part ++ rest) further →
      further.length ≤ 1 ∧ part <+: (further.map Prod.snd).flatten ∧
      (part = (further.map Prod.snd).flatten → rest = []) ∧ l.outbox.queue.inHand ≠ none := by
    rintro rest ⟨lane, -, hhand, rfl⟩
    simp [hhand]
  cases hloop : l.loop with
  | top | taking =>
    rw [hloop] at hstage
    obtain ⟨rfl, rfl, -⟩ := hstage
    simp
  | sending rest =>
    rw [hloop] at hstage
    obtain ⟨hlength, hprefix, hwhole, hhand⟩ := hinHand rest hstage
    exact ⟨hlength, hprefix, fun h => .inr (.inl (by rw [hwhole h])), fun _ h => absurd h hhand⟩
  | writing rest =>
    rw [hloop] at hstage
    obtain ⟨hlength, hprefix, hwhole, hhand⟩ := hinHand rest hstage.1
    exact ⟨hlength, hprefix, fun h => absurd (hwhole h) hstage.2, fun _ h => absurd h hhand⟩
  | finishing went =>
    rw [hloop] at hstage
    cases went with
    | true =>
      obtain ⟨hlength, hprefix, -, hhand⟩ := hinHand [] (by rw [List.append_nil]; exact hstage)
      exact ⟨hlength, hprefix, fun _ => .inr (.inr (.inl rfl)), fun _ h => absurd h hhand⟩
    | false =>
      obtain ⟨rest, hstage, hrest⟩ := hstage
      obtain ⟨hlength, hprefix, hwhole, hhand⟩ := hinHand rest hstage
      exact ⟨hlength, hprefix, fun h => absurd (hwhole h) hrest, fun _ h => absurd h hhand⟩
  | leaving | abandoning | gone =>
    rw [hloop] at hstage
    have hleft : l.GivenUp := .inr (by rw [hloop]; rfl)
    rcases hstage with ⟨rfl, rfl, -⟩ | ⟨lane, rest, rfl, hrest, -⟩
    · simp
    · exact ⟨le_rfl, by simp, fun h => .inr (.inr (.inr (hrest (by simpa using h)))), fun _ _ => hleft⟩

/-- **The stream to a relay is always whole frames.**  Behind every run the wire holds the frames that
are counted as written, in the order `take` gave them, and behind those a part of at most one more,
which is whole only where its count is the next step of the thread (or a panic came between the two).
Within each lane what was written is the front of what was let in, and that one more frame, once it is
out of the hand of the writer, is in the count of the lost, with those a `shut` threw away.  Nothing
is put behind a frame that is given up. -/
theorem wire_is_whole_frames {moves : List Move} {l : Link}
    (hrun : Machine.run move .new moves = some l) :
    let past := Machine.transitions move .new moves
    (∃ further part,
      took past = wrote past ++ further ∧ further.length ≤ 1 ∧
      l.wire = ((wrote past).map Prod.snd).flatten ++ part ∧
      part <+: (further.map Prod.snd).flatten ∧
      (part = (further.map Prod.snd).flatten →
        further = [] ∨ l.loop = .sending [] ∨ l.loop = .finishing true ∨ Panicked past) ∧
      (further ≠ [] → l.outbox.queue.inHand = none → l.GivenUp) ∧
      ∀ lane, (l.outbox.queue.of lane).wrote = (ofLane lane (wrote past)).length ∧
        ∃ thrown, came lane past = ofLane lane (wrote past) ++ ofLane lane further ++
            l.outbox.queue.frames lane ++ thrown ∧
          (l.outbox.queue.of lane).lost + (if l.outbox.queue.inHand = some lane then 1 else 0) =
            (ofLane lane further).length + thrown.length) ∧
    (l.loop = .gone → l.outbox.queue.inHand = none) ∧
    (l.GivenUp → ∀ later t, Machine.run move l later = some t → t.wire = l.wire) := by
  intro past
  have hsound := Machine.run_history (P := Sound) (fun _ _ _ _ h hmove => h.move hmove) sound_new hrun
  rw [List.nil_append] at hsound
  refine ⟨?_, fun hgone => ?_, fun hgiven later t hlater => ?_⟩
  · obtain ⟨further, part, honWire⟩ := hsound.onWire
    obtain ⟨hlength, hprefix, hwhole, hgiven⟩ := honWire.further_cases
    refine ⟨further, part, honWire.took_eq, hlength, honWire.wire_eq, hprefix, hwhole, hgiven,
      fun lane => ⟨hsound.counted lane, ?_⟩⟩
    obtain ⟨thrown, -, hlines⟩ := (hsound.lined lane).lines
    rw [honWire.took_eq, ofLane_append] at hlines
    refine ⟨thrown, hlines, ?_⟩
    have hbalanced := hsound.linked.counted.balanced lane
    have htaken := (hsound.lined lane).taken_eq
    rw [hbalanced, hlines, hsound.counted lane] at htaken
    simp only [List.length_append] at htaken
    omega
  · have hagrees := hsound.linked.agrees
    rw [hgone] at hagrees
    exact hsound.linked.counted.gone hagrees
  · exact (Machine.run_invariant (P := fun u => u.GivenUp ∧ u.wire = l.wire)
      (fun u m v hu hmove => by
        obtain ⟨hnext, hwire⟩ := hu.1.move hmove
        exact ⟨hnext, hwire.trans hu.2⟩) ⟨hgiven, rfl⟩ hlater).2

/-- A message that goes in two writes, and a subscription that a reset cuts in its middle: the wire
holds the one and the first byte of the other, and nothing is put behind it. -/
theorem wire_is_whole_frames_of_two :
    let own := Move.own true
    let moves : List Move := [own (.call (.putMessage 0 [7, 8] false)), own .look, own .take,
      own (.call (.putControl 1 [9, 9] false)), own .check, own (.write (.bytes 1) false), own .check,
      own (.write .timedOut false), own .check, own (.write (.bytes 1) false), own .check,
      own .finish, own .look, own .take, own .check, own (.write (.bytes 1) false), own .check,
      own (.write .failed false)]
    let past := Machine.transitions move .new moves
    ∃ l, Machine.run move .new moves = some l ∧ l.wire = [7, 8, 9] ∧
      wrote past = [(.message, [7, 8])] ∧ took past = [(.message, [7, 8]), (.control, [9, 9])] ∧
      ∀ later t, Machine.run move l later = some t → t.wire = [7, 8, 9] := by
  intro own moves past
  obtain ⟨l, hrun, hwire, hgiven⟩ : ∃ l, Machine.run move .new moves = some l ∧
      l.wire = [7, 8, 9] ∧ l.GivenUp := ⟨_, rfl, rfl, .inl rfl⟩
  refine ⟨l, hrun, hwire, rfl, rfl, fun later t hlater => ?_⟩
  rw [← hwire]
  exact (wire_is_whole_frames hrun).2.2 hgiven later t hlater

end Link

end LcmBus.Relay
