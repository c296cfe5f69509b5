import LcmBus.Client.Life

/-!
# What a client says of its end

`ReaderExit` of `mod.rs`: what `on_stop` is told, and when it is not called.

* `Truth`: what lies behind a cause that it was told;
* `Told` and `Told.step`: where the thread that reads is, against what was told;
* `reports_its_end`: what holds in every run.
-/

namespace LcmBus.Life

open Relay

variable {s t : State} {act : Act} {past : Past} {bus : Bus}

/-- The relay closed the stream. -/
def peerClosed (past : Past) : Prop := ∃ entry ∈ past, entry.2.1 = .peerCloses

@[simp] theorem peerClosed_concat :
    peerClosed (past ++ [(s, act, t)]) ↔ peerClosed past ∨ act = .peerCloses := by
  simp [peerClosed, or_and_right, exists_or]

/-- No call of `close` had begun when `on_stop` was told this. -/
def Unasked (cause : Cause) (past : Past) : Prop :=
  ∃ before later, past = before ++ later ∧ stops before = [cause] ∧ ¬ closed before

theorem Unasked.concat {cause : Cause} (h : Unasked cause past) : Unasked cause (past ++ [(s, act, t)]) := by
  obtain ⟨before, later, rfl, hstops, hclosed⟩ := h
  exact ⟨before, later ++ [(s, act, t)], by simp, hstops, hclosed⟩

/-- What a loop that ended by itself leaves. -/
structure Loop (past : Past) (stop : Stop) : Prop where
  ended : ended stop past
  calm : ¬ panicked past
  closed : stop = .closed → peerClosed past

/-- What lies behind a cause that `on_stop` was told. -/
def Truth (past : Past) : Cause → Prop
  | .panicked => panicked past
  | .stop stop => Loop past stop ∧ Unasked (.stop stop) past

/-- What lies behind a cause that `ReaderExit` holds. -/
def Brings (past : Past) : Option Cause → Bool → Prop
  | none, false => closed past ∧ ¬ panicked past
  | some (.stop stop), false => Loop past stop
  | some .panicked, true => panicked past
  | _, _ => False

/-- Where the thread that reads is, against what was told. -/
def Phase (bus : Bus) (running : Bool) (past : Past) : Reader → Prop
  | .looking | .working | .handling => stops past = [] ∧ ¬ panicked past
  | .leaving cause panicked | .swapping cause panicked => stops past = [] ∧ Brings past cause panicked
  | .reporting cause => stops past = [cause] ∧ Truth past cause ∧ running = false
  | .gone =>
    (bus.receives = false ∧ stops past = [] ∧ ¬ panicked past) ∨
    (running = false ∧ stops past = [] ∧ closed past ∧ ¬ panicked past) ∨
    (running = false ∧ ∃ cause, stops past = [cause] ∧ Truth past cause)

section Mono

/-- A step of another thread takes nothing of it back. -/
theorem Loop.concat {stop : Stop} (h : Loop past stop) (hact : act ≠ .panics) :
    Loop (past ++ [(s, act, t)]) stop := by
  constructor
  · exact ended_concat _ _ _ _ h.ended
  · simpa [hact] using h.calm
  · exact fun hstop => peerClosed_concat.2 (.inl (h.closed hstop))

theorem Truth.concat {cause : Cause} (h : Truth past cause) (hact : act ≠ .panics) :
    Truth (past ++ [(s, act, t)]) cause := by
  cases cause with
  | panicked => exact (panicked_concat ..).2 (.inl h)
  | stop stop => exact ⟨h.1.concat hact, h.2.concat⟩

theorem Brings.concat {cause : Option Cause} {unwinds : Bool} (h : Brings past cause unwinds)
    (hact : act ≠ .panics) : Brings (past ++ [(s, act, t)]) cause unwinds := by
  unfold Brings at h ⊢
  split
  · exact ⟨(closed_concat ..).2 (.inl h.1), by simpa [hact] using h.2⟩
  · exact h.concat hact
  · exact (panicked_concat ..).2 (.inl h)
  · split at h <;> simp_all

theorem Phase.concat {running now : Bool} {r : Reader} (h : Phase bus running past r)
    (hact : act ≠ .panics) (htells : tells act t = []) (hrunning : running = false → now = false) :
    Phase bus now (past ++ [(s, act, t)]) r := by
  have hcalm : ¬ panicked past → ¬ panicked (past ++ [(s, act, t)]) := by simp [hact]
  have hstops : stops (past ++ [(s, act, t)]) = stops past := by simp [htells]
  cases r with
  | looking | working | handling => exact ⟨hstops.trans h.1, hcalm h.2⟩
  | leaving cause unwinds | swapping cause unwinds => exact ⟨hstops.trans h.1, h.2.concat hact⟩
  | reporting cause => exact ⟨hstops.trans h.1, h.2.1.concat hact, hrunning h.2.2⟩
  | gone =>
    rcases h with ⟨hbus, hnone, hp⟩ | ⟨hfalse, hnone, hclosed, hp⟩ | ⟨hfalse, cause, hcause, htruth⟩
    · exact .inl ⟨hbus, hstops.trans hnone, hcalm hp⟩
    · exact .inr (.inl ⟨hrunning hfalse, hstops.trans hnone, (closed_concat ..).2 (.inl hclosed), hcalm hp⟩)
    · exact .inr (.inr ⟨hrunning hfalse, cause, hstops.trans hcause, htruth.concat hact⟩)

end Mono

/-- The loop of the thread is at its end. -/
def Reader.out : Reader → Bool
  | .looking | .working | .handling => false
  | _ => true

/-- What was told, against the flags and the threads. -/
structure Told (bus : Bus) (s : State) (past : Past) : Prop where
  phase : Phase bus s.running past s.reader
  stopped : closed past → s.running = false
  asked : s.running = false → closed past ∨ stops past ≠ []
  /-- The stream of a dialled client ends by its writer or by the relay. -/
  cut : ∀ d, s.transport = .tcpq d → d.cut = true →
    d.torn ≠ none ∨ peerClosed past ∨ s.reader.out = true

theorem told_start (bus : Bus) : Told bus (start bus) [] := by
  have hnone : ¬ panicked [] := by simp [panicked]
  constructor
  · cases hreceives : bus.receives with
    | true => simpa [start, hreceives, Phase] using ⟨rfl, hnone⟩
    | false => simpa [start, hreceives, Phase] using ⟨rfl, hnone⟩
  · exact fun h => absurd h (by simp [closed])
  · exact fun h => absurd h (by simp [start])
  · intro d hd hcut
    rw [dialled_start hd] at hcut
    exact absurd hcut (by simp)

theorem out_step (h : s.reader.out = true) (hstep : step s act = some t) : t.reader.out = true := by
  cases stepped_of_step hstep with
  | look hat | nothing hat | delivery hat | atEnd hat | stops hat | calledOff hat | returns hat
  | panics hat => cases hat ▸ h
  | exits | reported => rfl
  | swaps => cases s.running <;> cases ‹Bool› <;> rfl
  | closes _ hturn =>
    obtain ⟨later, hturned⟩ := turned_of_closeTurn hturn
    rwa [hturned.reader]
  | writer | peerCloses | close => exact h

/-- A stream that is at its end is so by the writer or the relay. -/
theorem Told.cut_step (h : Told bus s past) (hstep : step s act = some t) {e : Dialled}
    (he : t.transport = .tcpq e) (hcut : e.cut = true) :
    e.torn ≠ none ∨ peerClosed (past ++ [(s, act, t)]) ∨ t.reader.out = true := by
  have hold : ∀ d, s.transport = .tcpq d → d.cut = true →
      d.torn ≠ none ∨ peerClosed (past ++ [(s, act, t)]) ∨ t.reader.out = true := by
    intro d hd hcut
    rcases h.cut d hd hcut with htorn | hpeer | hout
    · exact .inl htorn
    · exact .inr (.inl (peerClosed_concat.2 (.inl hpeer)))
    · exact .inr (.inr (out_step hout hstep))
  rcases same_step hstep with hsame | ⟨d, e', hd, he', -, -, hends⟩
  · exact hold e (hsame ▸ he) hcut
  · cases Transport.tcpq.inj (he'.symm.trans he)
    rcases hends with ⟨hkept, htorn⟩ | htorn | rfl | rfl
    · rw [htorn]
      exact hold d hd (hkept ▸ hcut)
    · exact .inl htorn
    · exact .inr (.inl (peerClosed_concat.2 (.inr rfl)))
    · cases stepped_of_step hstep
      exact .inr (.inr rfl)

/-- A loop that ends as `running` is cleared ends by a call of `close`. -/
theorem Told.leaves (h : Told bus s past) (hcalm : stops past = [] ∧ ¬ panicked past)
    (hact : act ≠ .panics) (htells : tells act t = []) (hrunning : s.running = false) :
    stops (past ++ [(s, act, t)]) = [] ∧ Brings (past ++ [(s, act, t)]) none false := by
  refine ⟨by simp [htells, hcalm.1], ?_, by simpa [hact] using hcalm.2⟩
  rcases h.asked hrunning with hclosed | hstops
  · exact (closed_concat ..).2 (.inl hclosed)
  · exact absurd hcalm.1 hstops

/-- **The swap tells a stop that the client asked for from one that it did not.** -/
theorem Told.swapped {cause : Option Cause} {unwinds : Bool} (h : Told bus s past)
    (hphase : stops past = [] ∧ Brings past cause unwinds)
    (ht : t.reader = if s.running || unwinds then .reporting (cause.getD .panicked) else .gone) :
    Phase bus false (past ++ [(s, .swaps, t)]) t.reader := by
  obtain ⟨hstops, hbrings⟩ := hphase
  have htells : ∀ cause, t.reader = .reporting cause → stops (past ++ [(s, .swaps, t)]) = [cause] := by
    intro cause hreader
    simp [tells, hstops, hreader]
  have hgone : t.reader = .gone → stops (past ++ [(s, .swaps, t)]) = [] := by
    intro hreader
    simp [tells, hstops, hreader]
  have hasked : s.running = false → closed (past ++ [(s, .swaps, t)]) := fun hfalse =>
    (closed_concat ..).2 (.inl ((h.asked hfalse).resolve_right (absurd hstops)))
  match cause, unwinds, hbrings with
  | none, false, ⟨hclosed, hcalm⟩ =>
    rw [h.stopped hclosed] at ht
    rw [ht]
    exact .inr (.inl ⟨rfl, hgone ht, (closed_concat ..).2 (.inl hclosed), by simpa using hcalm⟩)
  | some (.stop stop), false, hloop =>
    cases hrunning : s.running with
    | false =>
      rw [hrunning] at ht
      rw [ht]
      exact .inr (.inl ⟨rfl, hgone ht, hasked hrunning, by simpa using hloop.calm⟩)
    | true =>
      rw [hrunning] at ht
      rw [ht]
      refine ⟨htells _ ht, ⟨hloop.concat nofun, ⟨_, [], (List.append_nil _).symm, htells _ ht, ?_⟩⟩, rfl⟩
      simpa using fun hclosed => absurd (h.stopped hclosed) (by simp [hrunning])
  | some .panicked, true, hpanicked =>
    rw [Bool.or_true] at ht
    rw [ht]
    exact ⟨htells _ ht, (panicked_concat ..).2 (.inl hpanicked), rfl⟩

/-- Where the thread that reads is, behind a step. -/
theorem Told.phase_step (h : Told bus s past) (hstep : step s act = some t) :
    Phase bus t.running (past ++ [(s, act, t)]) t.reader := by
  have hphase := h.phase
  have hstopped : s.running = false → t.running = false := by
    intro hfalse
    rcases running_step hstep with hrunning | ⟨hrunning, -⟩
    · exact hrunning.trans hfalse
    · exact hrunning
  cases stepped_of_step hstep with
  | closes hstage hturn =>
    obtain ⟨later, hturned⟩ := turned_of_closeTurn hturn
    rw [hturned.reader]
    exact hphase.concat nofun rfl hstopped
  | writer | peerCloses | close => exact hphase.concat nofun rfl hstopped
  | nothing hat | delivery hat =>
    rw [hat] at hphase
    exact hphase.concat (r := .working) nofun rfl hstopped
  | returns hat =>
    rw [hat] at hphase
    exact hphase.concat (r := .handling) nofun rfl hstopped
  | look hat =>
    rw [hat] at hphase
    cases hrunning : s.running with
    | true => exact hphase.concat (r := .looking) nofun rfl fun hfalse => hrunning.symm.trans hfalse
    | false => exact h.leaves hphase nofun rfl hrunning
  | calledOff hat hrunning =>
    rw [hat] at hphase
    exact h.leaves hphase nofun rfl hrunning
  | @atEnd d hat hd hcut =>
    rw [hat] at hphase
    refine ⟨by simp [tells, hphase.1], ⟨⟨_, List.mem_append_right _ (List.mem_singleton.2 rfl), rfl⟩, ?_, ?_⟩⟩
    · simpa using hphase.2
    · intro hclosed
      refine peerClosed_concat.2 (.inl ?_)
      rcases h.cut d hd hcut with htorn | hpeer | hout
      · obtain ⟨e, he⟩ := Option.ne_none_iff_exists'.1 htorn
        rw [he] at hclosed
        cases hclosed
      · exact hpeer
      · rw [hat] at hout
        cases hout
  | @stops stop hat hstop =>
    rw [hat] at hphase
    refine ⟨by simp [tells, hphase.1], ⟨⟨_, List.mem_append_right _ (List.mem_singleton.2 rfl), rfl⟩, ?_, ?_⟩⟩
    · simpa using hphase.2
    · exact fun hclosed => absurd hclosed hstop
  | panics hat =>
    rw [hat] at hphase
    exact ⟨by simp [tells, hphase.1], (panicked_concat ..).2 (.inr rfl)⟩
  | @exits cause unwinds hat =>
    rw [hat] at hphase
    exact hphase.concat (r := .leaving cause unwinds) nofun rfl hstopped
  | @swaps cause unwinds hat =>
    rw [hat] at hphase
    exact h.swapped hphase rfl
  | @reported cause hat =>
    rw [hat] at hphase
    obtain ⟨hstops, htruth, hfalse⟩ := hphase
    exact .inr (.inr ⟨hstopped hfalse, cause, by simp [tells, hstops], htruth.concat nofun⟩)

theorem Told.step (h : Told bus s past) (hstep : Life.step s act = some t) :
    Told bus t (past ++ [(s, act, t)]) := by
  have hrunning := running_step hstep
  constructor
  · exact h.phase_step hstep
  · intro hclosed
    rcases hrunning with hrunning | ⟨hfalse, -⟩
    · rcases (closed_concat ..).1 hclosed with hclosed | ⟨u, rfl⟩
      · exact hrunning.trans (h.stopped hclosed)
      · cases stepped_of_step hstep
        rfl
    · exact hfalse
  · intro hfalse
    have hold : s.running = false → closed (past ++ [(s, act, t)]) ∨ stops (past ++ [(s, act, t)]) ≠ [] := by
      intro hfalse
      refine (h.asked hfalse).imp (fun hclosed => (closed_concat ..).2 (.inl hclosed)) fun hstops => ?_
      simp [hstops]
    rcases hrunning with hrunning | ⟨-, ⟨u, rfl⟩ | rfl⟩
    · exact hold (hrunning.symm.trans hfalse)
    · exact .inl ((closed_concat ..).2 (.inr ⟨u, rfl⟩))
    · cases hrunning : s.running with
      | false => exact hold hrunning
      | true =>
        cases stepped_of_step hstep
        exact .inr (by simp [tells, hrunning])
  · exact fun e he => h.cut_step hstep he

theorem told_of_run {acts : List Act} (hrun : Machine.run step (start bus) acts = some s) :
    Told bus s (Machine.transitions step (start bus) acts) := by
  have hhistory := Machine.run_history (P := Told bus) (fun _ _ _ _ h hstep => h.step hstep)
    (told_start bus) hrun
  rwa [List.nil_append] at hhistory

/-! ### The report of its end -/

theorem Phase.told {running : Bool} {r : Reader} (h : Phase bus running past r) :
    stops past = [] ∨ ∃ cause, stops past = [cause] ∧ Truth past cause ∧ running = false ∧
      (r = .reporting cause ∨ r = .gone) := by
  cases r with
  | looking | working | handling | leaving | swapping => exact .inl h.1
  | reporting cause => exact .inr ⟨cause, h.1, h.2.1, h.2.2, .inl rfl⟩
  | gone =>
    rcases h with ⟨-, hnone, -⟩ | ⟨-, hnone, -⟩ | ⟨hfalse, cause, hcause, htruth⟩
    · exact .inl hnone
    · exact .inl hnone
    · exact .inr ⟨cause, hcause, htruth, hfalse, .inr rfl⟩

/-- `ReaderExit` is behind its swap. -/
def Reader.swapped : Reader → Bool
  | .reporting _ | .gone => true
  | _ => false

theorem swapped_step (h : s.reader.swapped = true) (hstep : step s act = some t) :
    t.reader.swapped = true ∧ act ≠ .works .delivery ∧ tells act t = [] := by
  cases stepped_of_step hstep with
  | look hat | nothing hat | delivery hat | atEnd hat | stops hat | calledOff hat | returns hat
  | panics hat | exits hat | swaps hat => cases hat ▸ h
  | reported => exact ⟨rfl, nofun, rfl⟩
  | closes _ hturn =>
    obtain ⟨later, hturned⟩ := turned_of_closeTurn hturn
    exact ⟨hturned.reader ▸ h, nofun, rfl⟩
  | writer | peerCloses | close => exact ⟨h, nofun, rfl⟩

/-- Behind the swap the handler hears nothing more. -/
theorem silent_of_swapped (h : s.reader.swapped = true) {acts : List Act}
    (hrun : Machine.run step s acts = some t) :
    handled (Machine.transitions step s acts) = 0 ∧ stops (Machine.transitions step s acts) = [] := by
  have hhistory := Machine.run_history
    (P := fun s past => s.reader.swapped = true ∧ handled past = 0 ∧ stops past = [])
    (fun s past act t ⟨hswapped, hhandled, hstops⟩ hstep => by
      obtain ⟨hstill, hact, htells⟩ := swapped_step hswapped hstep
      exact ⟨hstill, by simp [hhandled, hact], by simp [hstops, htells]⟩)
    (⟨h, rfl, rfl⟩ : _ ∧ handled [] = 0 ∧ stops [] = []) hrun
  rw [List.nil_append] at hhistory
  exact hhistory.2

/-- **A client says once that it has stopped, and why.**  It says so unless a call of `close` had begun
and no handler panicked; the cause is what its loop ended with, `closed` only where the relay closed the
stream, and `panicked` wherever the handler panicked.  The handler is not called behind that, and a client
that says it is connected has told nothing and was not asked to close. -/
theorem reports_its_end {acts : List Act} (hrun : Machine.run step (start bus) acts = some s) :
    let past := Machine.transitions step (start bus) acts
    (stops past).length ≤ 1 ∧
    (∀ cause ∈ stops past, Truth past cause) ∧
    (bus.receives = true → s.reader = .gone → stops past = [] → closed past ∧ ¬ panicked past) ∧
    (panicked past → s.reader = .gone → stops past = [.panicked]) ∧
    (s.isConnected = true → ¬ closed past ∧ stops past = [] ∧ (bus.receives = true → s.reader ≠ .gone)) ∧
    (stops past ≠ [] → ∀ (more : List Act) (t : State), Machine.run step s more = some t →
      handled (Machine.transitions step s more) = 0 ∧ stops (Machine.transitions step s more) = []) := by
  intro past
  have htold := told_of_run hrun
  have hphase := htold.phase
  have hout := hphase.told
  refine ⟨?_, ?_, fun hreceives hgone hnone => ?_, fun hpanicked hgone => ?_, fun hconnected => ?_,
    fun htold more t hmore => ?_⟩
  · rcases hout with hnone | ⟨cause, hcause, -⟩
    · rw [hnone]
      exact Nat.zero_le 1
    · rw [hcause]
      exact le_rfl
  · intro cause hmem
    rcases hout with hnone | ⟨cause', hcause, htruth, -⟩
    · rw [hnone] at hmem
      cases hmem
    · rw [hcause, List.mem_singleton] at hmem
      exact hmem ▸ htruth
  · rw [hgone] at hphase
    rcases hphase with ⟨hnot, -⟩ | ⟨-, -, hclosed, hcalm⟩ | ⟨-, cause, hcause, -⟩
    · exact absurd hreceives (by simp [hnot])
    · exact ⟨hclosed, hcalm⟩
    · exact absurd (hnone.symm.trans hcause) (by simp)
  · rw [hgone] at hphase
    rcases hphase with ⟨-, -, hcalm⟩ | ⟨-, -, -, hcalm⟩ | ⟨-, cause, hcause, htruth⟩
    · exact absurd hpanicked hcalm
    · exact absurd hpanicked hcalm
    · cases cause with
      | panicked => exact hcause
      | stop stop => exact absurd hpanicked htruth.1.calm
  · have hrunning : s.running = true := (Bool.and_eq_true_iff.1 hconnected).1
    refine ⟨fun hclosed => ?_, ?_, fun hreceives hgone => ?_⟩
    · exact absurd (htold.stopped hclosed) (by simp [hrunning])
    · exact hout.resolve_right fun ⟨_, _, _, hfalse, _⟩ => absurd hfalse (by simp [hrunning])
    · rw [hgone] at hphase
      rcases hphase with ⟨hnot, -⟩ | ⟨hfalse, -⟩ | ⟨hfalse, -⟩
      · exact absurd hreceives (by simp [hnot])
      · exact absurd hfalse (by simp [hrunning])
      · exact absurd hfalse (by simp [hrunning])
  · obtain ⟨cause, -, -, -, hreader⟩ := hout.resolve_left htold
    refine silent_of_swapped ?_ hmore
    rcases hreader with hreader | hreader <;> rw [hreader] <;> rfl

/-- A dialled client whose write fails, and whose reader finds the end that the writer made of it. -/
def tornLink : List Act :=
  [.look, .works .delivery, .returns, .writer (.call (.putMessage 0 [7] false)) .other,
    .writer .look .other, .writer .take .other, .writer .check .other, .writer (.write .failed false) .other,
    .writer .finish .other, .look, .works .atEnd, .exits, .swaps, .close (.other 0), .reported]

/-- It says what the write failed with, and not that the relay closed the stream. -/
theorem reports_its_end_of_tornLink :
    let past := Machine.transitions step (start (.tcpq true)) tornLink
    ∃ s, Machine.run step (start (.tcpq true)) tornLink = some s ∧ s.reader = .gone ∧
      stops past = [.stop (.io .other)] ∧ Truth past (.stop (.io .other)) := by
  intro past
  have hend : (Machine.run step (start (.tcpq true)) tornLink).map State.reader = some .gone := by
    decide +kernel
  obtain ⟨s, hrun, hgone⟩ := Option.map_eq_some_iff.1 hend
  have hstops : stops past = [.stop (.io .other)] := by decide +kernel
  obtain ⟨-, htruth, -⟩ := reports_its_end hrun
  exact ⟨s, hrun, hgone, hstops, htruth _ (by rw [hstops]; exact List.mem_singleton_self _)⟩

end LcmBus.Life
