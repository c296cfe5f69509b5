import LcmBus.Client.LifeTells

/-!
# The end of `close`

What a call of `close` waits for, on whichever thread it runs.

* `Sound`: whoever has taken the handle of a thread waits for it, and `close` shuts the outbox before it
  waits for the writer;
* `waits_for_its_threads`: what a call that has returned leaves;
* `Closes.rank_step`: each step of the call, or of a thread that it waits for, brings it nearer to its end;
  `comes_to_its_end`: what comes of every call.
-/

namespace LcmBus.Life

open Relay

variable {s t : State} {act : Act}

/-! ### What holds of every state -/

structure Sound (s : State) : Prop where
  stopped : ∀ u, s.closing u ≠ none → s.running = false
  nested : s.closing .reader ≠ none → s.reader.inHandler = true
  joins : ∀ u, s.closing u = some .joining → u ≠ .reader
  /-- Whoever took the handle of a thread waits for it. -/
  waits : s.held = false → s.reader = .gone ∨ ∃ u, s.closing u = some .joining
  writer : ∀ d, s.transport = .tcpq d → d.held = false →
    d.link.loop = .gone ∨ ∃ u, s.closing u = some .joiningWriter
  linked : ∀ d, s.transport = .tcpq d → d.link.Linked
  shut : ∀ u stage d, s.closing u = some stage → stage.rank ≤ 6 → s.transport = .tcpq d → d.link.Closed

theorem sound_start (bus : Bus) : Sound (start bus) := by
  constructor
  · exact fun u h => absurd rfl h
  · exact fun h => absurd rfl h
  · exact nofun
  · intro h
    refine .inl ?_
    change bus.receives = false at h
    simp [start, h]
  · intro d hd hfalse
    rw [dialled_start hd] at hfalse
    exact absurd hfalse (by simp)
  · intro d hd
    rw [dialled_start hd]
    exact Link.linked_new
  · exact fun u stage d h => absurd h (by simp [start])

theorem Same.kept {e : Dialled} (h : Same s t act) (he : t.transport = .tcpq e) :
    ∃ d, s.transport = .tcpq d ∧ d.Kept e ∧
      (e.held = d.held ∨ e.held = false ∧ ∃ u, act = .closes u ∧ t.closing u = some .joiningWriter) := by
  rcases h with h | ⟨d, e', hd, he', hkept, hheld, -⟩
  · exact ⟨e, h ▸ he, .of_link rfl, .inl rfl⟩
  · cases Transport.tcpq.inj (he'.symm.trans he)
    exact ⟨d, hd, hkept, hheld⟩

/-- What holds of the bus, where every call of `close` that is at a stage was there before. -/
theorem Sound.bus {e : Dialled} (h : Sound s) (hsame : Same s t act) (he : t.transport = .tcpq e)
    (hwaits : ∀ u, s.closing u = some .joiningWriter →
      t.closing u = some .joiningWriter ∨ s.writerGone = true) :
    e.link.Linked ∧ (e.held = false → e.link.loop = .gone ∨ ∃ u, t.closing u = some .joiningWriter) := by
  obtain ⟨d, hd, hkept, hheld⟩ := hsame.kept he
  refine ⟨hkept.linked (h.linked d hd), fun hfalse => ?_⟩
  rcases hheld with hheld | ⟨-, u, -, hu⟩
  · rcases h.writer d hd (hheld ▸ hfalse) with hgone | ⟨u, hu⟩
    · exact .inl (hkept.gone hgone)
    · rcases hwaits u hu with hu | hgone
      · exact .inr ⟨u, hu⟩
      · rw [State.writerGone, hd] at hgone
        exact .inl (hkept.gone (of_decide_eq_true hgone))
  · exact .inr ⟨u, hu⟩

theorem Sound.close {u : Thread} (h : Sound s) (hstep : step s (.close u) = some t) : Sound t := by
  have hsame := same_step hstep
  simp only [Life.step] at hstep
  split_ifs at hstep with hcond
  obtain ⟨hnone, hnested⟩ := hcond
  cases hstep
  have hother : ∀ v stage, stage ≠ .cleared → (Function.update s.closing u (some .cleared) v = some stage ↔
      s.closing v = some stage) := by
    intro v stage hstage
    by_cases hv : v = u
    · subst hv
      simp [hnone, Ne.symm hstage]
    · rw [Function.update_of_ne hv]
  constructor
  · exact fun _ _ => rfl
  · intro hreader
    by_cases hu : u = .reader
    · exact hnested hu
    · change Function.update s.closing u _ .reader ≠ none at hreader
      rw [Function.update_of_ne (Ne.symm hu)] at hreader
      exact h.nested hreader
  · exact fun v hv => h.joins v ((hother v _ (by decide)).1 hv)
  · intro hheld
    obtain hgone | ⟨v, hv⟩ := h.waits hheld
    · exact .inl hgone
    · exact .inr ⟨v, (hother v _ (by decide)).2 hv⟩
  · exact fun e he => (h.bus hsame he fun v hv => .inl ((hother v _ (by decide)).2 hv)).2
  · exact fun e he => (h.bus hsame he fun v hv => .inl ((hother v _ (by decide)).2 hv)).1
  · intro v stage d hv hrank hd
    refine h.shut v stage d ((hother v stage ?_).1 hv) hrank hd
    rintro rfl
    exact absurd hrank (by decide)

theorem Sound.closes {u : Thread} (h : Sound s) (hstep : step s (.closes u) = some t) : Sound t := by
  have hsame := same_step hstep
  obtain ⟨stage, hstage, hturn⟩ := Option.bind_eq_some_iff.1 hstep
  obtain ⟨later, hturned⟩ := turned_of_closeTurn hturn
  have hother : ∀ v, v ≠ u → t.closing v = s.closing v := fun v hv => by
    rw [hturned.closing, Function.update_of_ne hv]
  have hself : t.closing u = later := by rw [hturned.closing, Function.update_self]
  have hwaits : ∀ v, s.closing v = some .joiningWriter →
      t.closing v = some .joiningWriter ∨ s.writerGone = true := by
    intro v hv
    by_cases hu : v = u
    · exact .inr (hturned.joinedWriter (Option.some.inj (hstage.symm.trans (hu ▸ hv))))
    · exact .inl ((hother v hu).trans hv)
  constructor
  · intro v hv
    rw [hturned.running]
    exact h.stopped u (by rw [hstage]; simp)
  · intro hreader
    rw [hturned.reader]
    refine h.nested ?_
    by_cases hu : u = .reader
    · rw [← hu, hstage]
      exact nofun
    · rwa [hother _ (Ne.symm hu)] at hreader
  · intro v hv
    by_cases hu : v = u
    · rw [hu]
      exact hturned.joins (hself.symm.trans (hu ▸ hv))
    · exact h.joins v ((hother v hu).symm.trans hv)
  · intro hheld
    rcases hturned.held with hsameheld | ⟨hjoin, -⟩
    · obtain hgone | ⟨v, hv⟩ := h.waits (hsameheld ▸ hheld)
      · exact .inl (hturned.reader.trans hgone)
      · by_cases hu : v = u
        · exact .inl (hturned.reader.trans (hturned.joined (Option.some.inj (hstage.symm.trans (hu ▸ hv)))))
        · exact .inr ⟨v, (hother v hu).trans hv⟩
    · exact .inr ⟨u, hself.trans hjoin⟩
  · exact fun e he => (h.bus hsame he hwaits).2
  · exact fun e he => (h.bus hsame he hwaits).1
  · intro v stage' e hv hrank he
    obtain ⟨d, hd, hkept, -⟩ := hsame.kept he
    by_cases hu : v = u
    · subst hu
      rcases hturned.shut e he with hle | hlater | hclosed
      · exact hkept.closed (h.shut v stage d hstage hle hd)
      · cases hself.symm.trans hv ▸ hlater
        exact absurd hrank (by decide)
      · exact hclosed
    · exact hkept.closed (h.shut v stage' d ((hother v hu).symm.trans hv) hrank hd)

/-- What holds of a client is kept by every step. -/
theorem Sound.step (h : Sound s) (hstep : step s act = some t) : Sound t := by
  by_cases hclose : ∃ u, act = .close u
  · obtain ⟨u, rfl⟩ := hclose
    exact h.close hstep
  by_cases hcloses : ∃ u, act = .closes u
  · obtain ⟨u, rfl⟩ := hcloses
    exact h.closes hstep
  have hsame := same_step hstep
  obtain ⟨hgone, hreader⟩ := reader_step hstep
  obtain ⟨hclosing, hheld⟩ := closing_step (fun u hu => hclose ⟨u, hu⟩) (fun u hu => hcloses ⟨u, hu⟩) hstep
  constructor
  · intro u hu
    have hstopped := h.stopped u (hclosing ▸ hu)
    rcases running_step hstep with hrunning | ⟨hrunning, -⟩
    · exact hrunning.trans hstopped
    · exact hrunning
  · intro hnested
    rw [hclosing] at hnested
    rcases hreader with hreader | hfree
    · rw [hreader]
      exact h.nested hnested
    · exact absurd (hfree (h.nested hnested)) hnested
  · exact fun u hu => h.joins u (hclosing ▸ hu)
  · intro hfalse
    rw [hclosing]
    exact (h.waits (hheld ▸ hfalse)).imp_left hgone
  · exact fun e he => (h.bus hsame he fun u hu => .inl (hclosing ▸ hu)).2
  · exact fun e he => (h.bus hsame he fun u hu => .inl (hclosing ▸ hu)).1
  · intro u stage e hu hrank he
    obtain ⟨d, hd, hkept, -⟩ := hsame.kept he
    exact hkept.closed (h.shut u stage d (hclosing ▸ hu) hrank hd)

theorem sound_of_run {bus : Bus} {acts : List Act} (hrun : Machine.run step (start bus) acts = some s) :
    Sound s :=
  Machine.run_invariant (fun _ _ _ h hstep => h.step hstep) (sound_start bus) hrun

/-! ### What lies behind a call that returned -/

/-- The thread `u` called `close`. -/
def began (u : Thread) (past : Past) : Prop := ∃ entry ∈ past, entry.2.1 = .close u

@[simp] theorem began_concat {u : Thread} {past : Past} :
    began u (past ++ [(s, act, t)]) ↔ began u past ∨ act = .close u := by
  simp [began, or_and_right, exists_or]

theorem held_step (h : s.held = false) (hstep : step s act = some t) : t.held = false := by
  cases stepped_of_step hstep with
  | closes _ hturn =>
    obtain ⟨later, hturned⟩ := turned_of_closeTurn hturn
    rcases hturned.held with hheld | ⟨-, hheld⟩
    · exact hheld.trans h
    · exact hheld
  | _ => exact h

/-- A thread that called `close` is in the call, or a handle that it asks for is taken. -/
structure Behind (s : State) (past : Past) (u : Thread) : Prop where
  reader : u ≠ .reader → began u past → s.held = false ∨
    ∃ stage, s.closing u = some stage ∧ 2 ≤ stage.rank
  writer : began u past → ∀ d, s.transport = .tcpq d → d.held = false ∨
    ∃ stage, s.closing u = some stage ∧ 5 ≤ stage.rank

/-- A call that is at a stage from `least` on stays there, but for a turn of its own. -/
theorem stays_step {u : Thread} {least : ℕ} {P : Prop} (hpos : 0 < least) (hleast : least ≤ 8) (hstep : step s act = some t)
    (hown : ∀ stage later, Turned s t u stage later → least ≤ stage.rank →
      P ∨ least ≤ later.elim 0 Closing.rank)
    (h : act = .close u ∨ ∃ stage, s.closing u = some stage ∧ least ≤ stage.rank) :
    P ∨ ∃ stage, t.closing u = some stage ∧ least ≤ stage.rank := by
  by_cases hclose : act = .close u
  · subst hclose
    cases stepped_of_step hstep
    exact .inr ⟨.cleared, Function.update_self .., hleast⟩
  obtain ⟨stage, hstage, hrank⟩ := h.resolve_left hclose
  by_cases hcloses : act = .closes u
  · subst hcloses
    obtain ⟨stage', hstage', hturn⟩ := Option.bind_eq_some_iff.1 hstep
    cases Option.some.inj (hstage.symm.trans hstage')
    obtain ⟨later, hturned⟩ := turned_of_closeTurn hturn
    refine (hown stage later hturned hrank).imp_right fun hle => ?_
    rw [hturned.closing, Function.update_self]
    cases later with
    | some later => exact ⟨later, rfl, hle⟩
    | none => exact absurd hle (Nat.not_le.2 hpos)
  · exact .inr ⟨stage, (closing_of_ne hclose hcloses hstep).trans hstage, hrank⟩

theorem Behind.step {past : Past} {u : Thread} (h : Behind s past u) (hstep : Life.step s act = some t) :
    Behind t (past ++ [(s, act, t)]) u := by
  constructor
  · intro hu hbegan
    have hold : s.held = false ∨ (act = .close u ∨ ∃ stage, s.closing u = some stage ∧ 2 ≤ stage.rank) := by
      rcases began_concat.1 hbegan with hbegan | hclose
      · exact (h.reader hu hbegan).imp_right .inr
      · exact .inr (.inl hclose)
    rcases hold with hheld | hstage
    · exact .inl (held_step hheld hstep)
    · refine stays_step (by decide) (by decide) hstep (fun stage later hturned hrank => ?_) hstage
      by_cases hat : stage = .atReader
      · exact .inl (hturned.takes hat hu)
      · exact .inr (hturned.asks (by cases stage <;> simp_all [Closing.rank]))
  · intro hbegan e he
    obtain ⟨d, hd, -, hheld⟩ := (same_step hstep).kept he
    have hold : d.held = false ∨ (act = .close u ∨ ∃ stage, s.closing u = some stage ∧ 5 ≤ stage.rank) := by
      rcases began_concat.1 hbegan with hbegan | hclose
      · exact (h.writer hbegan d hd).imp_right .inr
      · exact .inr (.inl hclose)
    rcases hold with hfalse | hstage
    · rcases hheld with hheld | ⟨hheld, -⟩
      · exact .inl (hheld.trans hfalse)
      · exact .inl hheld
    · exact stays_step (by decide) (by decide) hstep (fun stage later hturned hrank =>
        (hturned.takesWriter e he hrank).symm) hstage

theorem behind_of_run {bus : Bus} {acts : List Act} (hrun : Machine.run step (start bus) acts = some s)
    (u : Thread) : Behind s (Machine.transitions step (start bus) acts) u := by
  have hhistory := Machine.run_history (P := fun s past => Behind s past u)
    (fun _ _ _ _ h hstep => h.step hstep)
    (⟨fun _ h => absurd h (by simp [began]), fun h => absurd h (by simp [began])⟩ : Behind (start bus) [] u)
    hrun
  rwa [List.nil_append] at hhistory

theorem working_step (hrunning : s.running = false) (hstep : step s act = some t) :
    (if act = .works .delivery then 1 else 0) + (if t.reader = .working then 1 else 0) ≤
      if s.reader = .working then 1 else 0 := by
  cases stepped_of_step hstep with
  | look hat => simp [hat, hrunning]
  | nothing hat | delivery hat | atEnd hat | stops hat | calledOff hat | returns hat | panics hat | exits hat
  | reported hat => simp [hat]
  | swaps hat =>
    rw [if_neg nofun, if_neg (by split <;> exact nofun)]
    exact Nat.zero_le _
  | closes _ hturn =>
    obtain ⟨later, hturned⟩ := turned_of_closeTurn hturn
    rw [if_neg nofun, Nat.zero_add, hturned.reader]
  | writer | peerCloses => rw [if_neg nofun, Nat.zero_add]
  | close =>
    rw [if_neg nofun, Nat.zero_add]
    exact le_rfl

/-- A loop that is called off comes to the handler once more at most. -/
theorem handled_le (hrunning : s.running = false) {acts : List Act}
    (hrun : Machine.run step s acts = some t) : handled (Machine.transitions step s acts) ≤ 1 := by
  have hhistory := Machine.run_history (P := fun s past => s.running = false ∧
      handled past + (if s.reader = .working then 1 else 0) ≤ 1)
    (fun s past act t ⟨hfalse, hcount⟩ hstep => by
      refine ⟨?_, ?_⟩
      · rcases running_step hstep with hrunning | ⟨hrunning, -⟩
        · exact hrunning.trans hfalse
        · exact hrunning
      · have := working_step hfalse hstep
        rw [handled_concat]
        omega)
    (⟨hrunning, by rw [show handled [] = 0 from rfl]; split <;> omega⟩ :
      s.running = false ∧ handled [] + (if s.reader = .working then 1 else 0) ≤ 1) hrun
  rw [List.nil_append] at hhistory
  omega

/-- **A call of `close` gives back behind the threads of the client.**  One that has returned leaves no
writer, and none that reads if it ran on another thread; but for a call beside it that took the handle,
and still waits.  The handler is called once more at most from the moment that a call has begun, and not
at all once the thread that reads is gone. -/
theorem waits_for_its_threads {bus : Bus} {acts : List Act}
    (hrun : Machine.run step (start bus) acts = some s) :
    let past := Machine.transitions step (start bus) acts
    (∀ u, began u past → s.closing u = none →
      (∀ d, s.transport = .tcpq d → d.link.loop = .gone ∨ ∃ v, s.closing v = some .joiningWriter) ∧
      (u ≠ .reader → s.reader = .gone ∨ ∃ v, v ≠ .reader ∧ s.closing v = some .joining)) ∧
    (∀ (more : List Act) (t : State), Machine.run step s more = some t →
      (closed past → handled (Machine.transitions step s more) ≤ 1) ∧
      (s.reader = .gone → handled (Machine.transitions step s more) = 0 ∧
        stops (Machine.transitions step s more) = [])) := by
  intro past
  have hsound := sound_of_run hrun
  refine ⟨fun u hbegan hnone => ⟨fun d hd => ?_, fun hu => ?_⟩, fun more t hmore =>
    ⟨fun hclosed => ?_, fun hgone => ?_⟩⟩
  · rcases (behind_of_run hrun u).writer hbegan d hd with hheld | ⟨stage, hstage, -⟩
    · exact hsound.writer d hd hheld
    · exact absurd (hnone.symm.trans hstage) nofun
  · rcases (behind_of_run hrun u).reader hu hbegan with hheld | ⟨stage, hstage, -⟩
    · exact (hsound.waits hheld).imp_right fun ⟨v, hv⟩ => ⟨v, hsound.joins v hv, hv⟩
    · exact absurd (hnone.symm.trans hstage) nofun
  · exact handled_le ((told_of_run hrun).stopped hclosed) hmore
  · exact silent_of_swapped (by rw [hgone]; rfl) hmore

/-- A handler that closes its own dialled client, as another thread does. -/
def closedTwice : List Act :=
  [[.look, .works .delivery, .close .reader, .closes .reader, .closes .reader, .close (.other 0)],
    List.replicate 4 (.closes (.other 0)), List.replicate 2 (.closes .reader),
    [.writer .look .other, .writer .exitShut .other, .writer .exitAbandon .other],
    List.replicate 2 (.closes .reader), [.returns], List.replicate 3 (.closes (.other 0)),
    [.look, .exits, .swaps, .closes (.other 0)]].flatten

/-- The other thread waits for the writer and for the handler, and the call in the handler for neither. -/
theorem waits_for_its_threads_of_closedTwice :
    let past := Machine.transitions step (start (.tcpq true)) closedTwice
    ∃ s, Machine.run step (start (.tcpq true)) closedTwice = some s ∧ s.closing (.other 0) = none ∧
      (s.reader = .gone ∨ ∃ v, v ≠ .reader ∧ s.closing v = some .joining) ∧ stops past = [] := by
  intro past
  have hend : (Machine.run step (start (.tcpq true)) closedTwice).map (fun s => s.closing (.other 0)) =
      some none := by decide +kernel
  obtain ⟨s, hrun, hnone⟩ := Option.map_eq_some_iff.1 hend
  have hbegan : began (.other 0) past := by
    have hany : (past.any fun entry => entry.2.1 = .close (.other 0)) = true := by decide +kernel
    obtain ⟨entry, hentry, hact⟩ := List.any_eq_true.1 hany
    exact ⟨entry, hentry, of_decide_eq_true hact⟩
  have hwaits := ((waits_for_its_threads hrun).1 (.other 0) hbegan hnone).2 nofun
  exact ⟨s, hrun, hnone, hwaits, by decide +kernel⟩

/-! ### The steps of a call -/

/-- The steps that the thread that reads has left, where it is called off. -/
def Reader.rank : Reader → ℕ
  | .working => 6
  | .handling => 5
  | .looking => 4
  | .leaving .. => 3
  | .swapping .. => 2
  | .reporting _ => 1
  | .gone => 0

/-- And its writer. -/
def State.linkRank (s : State) : ℕ :=
  match s.transport with
  | .tcpq d => d.link.rank
  | _ => 0

/-- All those that a call of `close` on `u` can wait for, and its own. -/
def State.rank (s : State) (u : Thread) : ℕ :=
  (s.closing u).elim 0 Closing.rank + s.reader.rank + s.linkRank

def Act.own (u : Thread) : Act → Bool
  | .writer act _ => act.ofWriter
  | .closes v => v = u
  | .peerCloses | .close _ => false
  | _ => true

@[simp] theorem linkRank_sets {u : Thread} {later : Option Closing} :
    (s.sets u later).linkRank = s.linkRank := rfl

theorem linkRank_modify {change : Dialled → Dialled} (h : ∀ d, (change d).link.rank ≤ d.link.rank) :
    (s.modify change).linkRank ≤ s.linkRank := by
  unfold State.modify
  split
  · rename_i d hd
    simpa [State.linkRank, hd] using h d
  · exact le_rfl

theorem linkRank_closeTurn {u : Thread} {stage : Closing} (hturn : s.closeTurn u stage = some t) :
    t.linkRank ≤ s.linkRank := by
  cases stage with
  | cleared | lingering =>
    cases hturn
    exact le_rfl
  | shutting =>
    cases hturn
    exact linkRank_modify fun _ => le_rfl
  | hangingUp =>
    cases hturn
    exact linkRank_modify fun d => d.link.rank_hangUp
  | atWriter =>
    simp only [State.closeTurn] at hturn
    split at hturn
    · rename_i d hd
      split_ifs at hturn
      · cases hturn
        simp [State.linkRank, State.sets, hd]
      · cases hturn
        exact le_rfl
    · cases hturn
      exact le_rfl
  | joiningWriter | atReader | joining =>
    simp only [State.closeTurn] at hturn
    split_ifs at hturn <;> cases hturn <;> exact le_rfl

/-- What a call of `close` needs to come to its end. -/
structure Closes (s : State) : Prop where
  sound : Sound s
  stopped : s.running = false
  shut : ∀ d, s.transport = .tcpq d → d.link.Closed

theorem Closes.step (h : Closes s) (hstep : Life.step s act = some t) : Closes t := by
  constructor
  · exact h.sound.step hstep
  · rcases running_step hstep with hrunning | ⟨hrunning, -⟩
    · exact hrunning.trans h.stopped
    · exact hrunning
  · intro e he
    obtain ⟨d, hd, hkept, -⟩ := (same_step hstep).kept he
    exact hkept.closed (h.shut d hd)

/-- **No step takes a call further from its end, and each one that it can wait for takes it nearer.** -/
theorem Closes.rank_step (h : Closes s) {u : Thread} (hin : s.closing u ≠ none)
    (hstep : Life.step s act = some t) :
    t.rank u ≤ s.rank u ∧ (act.own u = true → t.rank u < s.rank u) := by
  -- The steps of the thread that reads.
  have hreads : t.closing = s.closing → t.linkRank = s.linkRank → t.reader.rank < s.reader.rank →
      t.rank u ≤ s.rank u ∧ (act.own u = true → t.rank u < s.rank u) := by
    intro hclosing hlink hreader
    unfold State.rank
    rw [hclosing, hlink]
    omega
  -- And those of the others, of which no other call of `close` is one that this one waits for.
  have hothers : t.closing u = s.closing u → t.reader = s.reader → t.linkRank ≤ s.linkRank →
      (act.own u = true → t.linkRank < s.linkRank) →
      t.rank u ≤ s.rank u ∧ (act.own u = true → t.rank u < s.rank u) := by
    intro hclosing hreader hle hlt
    unfold State.rank
    rw [hclosing, hreader]
    refine ⟨by omega, fun hown => ?_⟩
    have := hlt hown
    omega
  cases stepped_of_step hstep with
  | look hat => exact hreads rfl rfl (by simp [hat, h.stopped, Reader.rank])
  | nothing hat | delivery hat | stops hat | calledOff hat | returns hat | panics hat | exits hat
  | reported hat => exact hreads rfl rfl (by simp [hat, Reader.rank])
  | atEnd hat hd => exact hreads rfl (by simp [State.linkRank, hd]) (by simp [hat, Reader.rank])
  | @swaps cause unwinds hat =>
    refine hreads rfl rfl ?_
    rw [hat]
    cases s.running <;> cases unwinds <;> simp [Reader.rank]
  | @writer d link act e hd hlink =>
    obtain ⟨hle, hlt, -⟩ := (h.sound.linked d hd).rank_step (h.shut d hd) (.inl h.stopped) hlink
    refine hothers rfl rfl ?_ fun hown => ?_
    · simpa [State.linkRank, hd] using hle
    · simpa [State.linkRank, hd] using hlt hown
  | peerCloses hd => exact hothers rfl rfl (by simp [State.linkRank, hd]) nofun
  | @close v hfree =>
    have hne : u ≠ v := fun hu => hin (hu ▸ hfree)
    exact hothers (Function.update_of_ne hne ..) rfl le_rfl nofun
  | @closes v stage _ hstage hturn =>
    obtain ⟨later, hturned⟩ := turned_of_closeTurn hturn
    have hlink := linkRank_closeTurn hturn
    by_cases hu : v = u
    · subst hu
      have hnearer := hturned.nearer
      have hat : t.closing v = later := by rw [hturned.closing, Function.update_self]
      unfold State.rank
      rw [hat, hturned.reader, hstage, Option.elim_some]
      omega
    · refine hothers ?_ hturned.reader hlink fun hown => absurd (of_decide_eq_true hown) hu
      rw [hturned.closing, Function.update_of_ne (Ne.symm hu)]

theorem exists_closeTurn {u : Thread} {stage : Closing} (hwriter : stage ≠ .joiningWriter)
    (hreader : stage ≠ .joining) : ∃ t, s.closeTurn u stage = some t := by
  cases stage with
  | cleared | shutting | hangingUp | lingering => exact ⟨_, rfl⟩
  | atWriter =>
    simp only [State.closeTurn]
    split
    · split <;> exact ⟨_, rfl⟩
    · exact ⟨_, rfl⟩
  | atReader =>
    simp only [State.closeTurn]
    split <;> exact ⟨_, rfl⟩
  | joiningWriter => exact absurd rfl hwriter
  | joining => exact absurd rfl hreader

/-- The step is one of the caller's own code. -/
def Act.ofHandler : Act → Bool
  | .returns | .panics | .reported => true
  | _ => false

/-- A call that has not returned has a step to take, or a thread that it waits for has one, but for one
that waits for the handler. -/
theorem Sound.exists_step (h : Sound s) {u : Thread} {stage : Closing} (hstage : s.closing u = some stage) :
    (∃ act t, act.own u = true ∧ act.ofHandler = false ∧ Life.step s act = some t) ∨
      (stage = .joining ∧ s.reader.inHandler = true) := by
  have hturns : (∃ t, s.closeTurn u stage = some t) →
      ∃ act t, act.own u = true ∧ act.ofHandler = false ∧ Life.step s act = some t :=
    fun ⟨t, ht⟩ => ⟨.closes u, t, decide_eq_true rfl, rfl, Option.bind_eq_some_iff.2 ⟨stage, hstage, ht⟩⟩
  by_cases hwriter : stage = .joiningWriter
  · subst hwriter
    refine .inl ?_
    cases hgone : s.writerGone with
    | true => exact hturns ⟨_, if_pos hgone⟩
    | false =>
      unfold State.writerGone at hgone
      split at hgone
      · rename_i d hd
        obtain ⟨act, link, hact, hlink⟩ :=
          (h.linked d hd).exists_step (of_decide_eq_false hgone) s.running
        exact ⟨.writer act .other, _, hact, rfl, by simp only [Life.step, hd, hlink]; rfl⟩
      · cases hgone
  by_cases hreader : stage = .joining
  · subst hreader
    cases hat : s.reader with
    | looking => exact .inl ⟨.look, _, rfl, rfl, by simp only [Life.step, hat]; rfl⟩
    | working => exact .inl ⟨.works .nothing, _, rfl, rfl, by simp only [Life.step, hat]; rfl⟩
    | leaving cause unwinds => exact .inl ⟨.exits, _, rfl, rfl, by simp only [Life.step, hat]; rfl⟩
    | swapping cause unwinds => exact .inl ⟨.swaps, _, rfl, rfl, by simp only [Life.step, hat]; rfl⟩
    | handling | reporting cause => exact .inr ⟨rfl, rfl⟩
    | gone => exact .inl (hturns ⟨_, if_pos hat⟩)
  exact .inl (hturns (exists_closeTurn hwriter hreader))

/-- **A call of `close` comes to its end.**  Whatever the other threads do, one that has not returned can
go on, or the writer or the thread that reads can, but where it waits for a handler that has not
returned; and once it has shut the outbox, no more than nineteen steps of theirs and its own are left. -/
theorem comes_to_its_end {bus : Bus} {acts : List Act} (hrun : Machine.run step (start bus) acts = some s)
    {u : Thread} {stage : Closing} (hstage : s.closing u = some stage) :
    ((∃ act t, act.own u = true ∧ act.ofHandler = false ∧ step s act = some t) ∨
      (stage = .joining ∧ u ≠ .reader ∧ s.reader.inHandler = true)) ∧
    (stage ≠ .cleared → stage ≠ .shutting → ∀ (more : List Act) (t : State),
      Machine.Each step (fun v _ => v.closing u ≠ none) s more → Machine.run step s more = some t →
        more.countP (Act.own u) ≤ 19) := by
  have hsound := sound_of_run hrun
  constructor
  · rcases hsound.exists_step hstage with hown | ⟨hjoining, hin⟩
    · exact .inl hown
    · exact .inr ⟨hjoining, hsound.joins u (hjoining ▸ hstage), hin⟩
  · intro hcleared hshutting more t hmore hrun'
    have hstagerank : stage.rank ≤ 6 := by cases stage <;> simp_all [Closing.rank]
    have hcloses : Closes s := ⟨hsound, hsound.stopped u (by simp [hstage]),
      fun d hd => hsound.shut u stage d hstage hstagerank hd⟩
    have hcount := Machine.run_count_add_le_of_each (P := Closes) (f := fun s => s.rank u)
      (q := Act.own u) (fun v act w hv hin hstep => ⟨hv.step hstep, hv.rank_step hin hstep⟩)
      hcloses hmore hrun'
    have hreader : s.reader.rank ≤ 6 := by cases s.reader <;> simp [Reader.rank]
    have hlink : s.linkRank ≤ 7 := by
      unfold State.linkRank
      split
      · exact Link.rank_le _
      · exact Nat.zero_le 7
    have hrank : s.rank u = stage.rank + s.reader.rank + s.linkRank := by
      rw [State.rank, hstage, Option.elim_some]
    omega

/-- In that run the other thread goes on from the shut of the outbox to its end. -/
theorem comes_to_its_end_of_closedTwice : ∃ s t,
    Machine.run step (start (.tcpq true)) (closedTwice.take 8) = some s ∧
      Machine.run step s (closedTwice.drop 8) = some t ∧
      (closedTwice.drop 8).countP (Act.own (.other 0)) ≤ 19 := by
  have hend : (Machine.run step (start (.tcpq true)) (closedTwice.take 8)).any (fun s =>
      s.closing (.other 0) = some .hangingUp ∧
        Machine.Each step (fun v _ => v.closing (.other 0) ≠ none) s (closedTwice.drop 8) ∧
          (Machine.run step s (closedTwice.drop 8)).isSome) = true := by decide +kernel
  obtain ⟨s, hrun, hs⟩ := (Option.any_eq_true _ _).1 hend
  obtain ⟨hstage, hmore, hsome⟩ := of_decide_eq_true hs
  obtain ⟨t, hrun'⟩ := Option.isSome_iff_exists.1 hsome
  exact ⟨s, t, hrun, hrun', (comes_to_its_end hrun hstage).2 nofun nofun _ t hmore hrun'⟩

end LcmBus.Life
