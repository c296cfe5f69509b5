import LcmBus.Client.DispatchVisits

/-!
# A served relay, with its own participant

The fan-out of a relay over all of its publishers, with the handler of the process that serves it, which
hears what it subscribed to like any client.

* `State` and `step`: the relay, and the branch of `dispatch` behind its loop;
* `asked`: of a past, the publishes that this handler was asked about;
* `Told.step`: each publish comes to it once, behind the last of the peers;
* `fans_out`: what comes of every publish, in every run.
-/

namespace LcmBus.Served

open Dispatch Outbox
open Relay (Heard onFrame)

variable {Regex : Type}

/-! ### The relay and its participant -/

structure State (Regex : Type) where
  bus : Dispatch.State Regex
  /-- The subscriptions of the participant. -/
  subscriptions : Subscriptions Regex
  /-- What its handler heard, and the counters. -/
  heard : Heard
  /-- The publisher is behind the branch of the participant. -/
  told : Publisher → Bool

def start (subscriptions : Subscriptions Regex) : State Regex :=
  ⟨Dispatch.start, subscriptions, ⟨.zero, []⟩, fun _ => false⟩

inductive Act
  /-- A step of any thread of the relay. -/
  | bus (act : Dispatch.Act)
  /-- The branch of `dispatch` behind its loop. -/
  | hear (p : Publisher)
  /-- An operation on the subscriptions, which tells no one.  One that `close` has refused is no step. -/
  | subscribeName (channel : String)
  | subscribe (pattern : String)
  | unsubscribe (subscription : String)
  deriving DecidableEq, Repr

namespace State

/-- The thread of a publisher is there. -/
def alive (s : State Regex) : Publisher → Bool
  | .peer id => s.bus.reading id
  | .thread _ => true

/-- A publish ends behind the branch of the participant, and what panics is its handler. -/
def allows (s : State Regex) : Dispatch.Act → Bool
  | .visit p =>
    match s.bus.places p with
    | .visits _ [] => s.told p && s.alive p
    | _ => true
  | .relay (.readerPanics id) => s.told (.peer id)
  | _ => true

/-- Behind a step of the relay. -/
def goes (s : State Regex) (act : Dispatch.Act) (bus : Dispatch.State Regex) : State Regex :=
  match act with
  | .visit p =>
    match bus.places p with
    | .idle => { s with bus, told := Function.update s.told p false }
    | _ => { s with bus }
  | _ => { s with bus }

end State

/-- One step of one thread. -/
def step (engine : Engine Regex) (s : State Regex) : Act → Option (State Regex)
  | .bus act => if s.allows act then (Dispatch.step engine s.bus act).map (s.goes act) else none
  | .hear p =>
    match s.bus.places p with
    | .visits job [] =>
      if s.told p then none
      else some { s with
        heard := onFrame engine s.subscriptions s.heard job.frame
        told := Function.update s.told p true }
    | _ => none
  | .subscribeName channel =>
    match s.subscriptions.addName channel with
    | .ok subscriptions => some { s with subscriptions }
    | .error _ => some s
  | .subscribe pattern =>
    match s.subscriptions.add engine pattern with
    | .ok subscriptions => some { s with subscriptions }
    | .error _ => some s
  | .unsubscribe subscription => some { s with subscriptions := (s.subscriptions.remove subscription).2 }

/-! ### What a past holds -/

abbrev Past (Regex : Type) := List (State Regex × Act × State Regex)

/-- The step of the relay in a step. -/
def busStep (s : State Regex) (act : Act) (t : State Regex) :
    List (Dispatch.State Regex × Dispatch.Act × Dispatch.State Regex) :=
  match act with
  | .bus act => [(s.bus, act, t.bus)]
  | _ => []

/-- What the relay went through. -/
def bus (past : Past Regex) : List (Dispatch.State Regex × Dispatch.Act × Dispatch.State Regex) :=
  past.flatMap fun (s, act, t) => busStep s act t

/-- A publish that the participant was asked about, and whether its rules selected the channel. -/
structure Asked where
  p : Publisher
  job : Job
  selected : Bool
  deriving DecidableEq, Repr

/-- The one that it is asked about in a step. -/
def asks (engine : Engine Regex) (s : State Regex) : Act → List Asked
  | .hear p => (s.bus.places p).job.toList.map fun job =>
    ⟨p, job, s.subscriptions.selects engine job.frame.channel⟩
  | _ => []

/-- And all of them. -/
def asked (engine : Engine Regex) (past : Past Regex) : List Asked :=
  past.flatMap fun (s, act, _) => asks engine s act

section Concat

variable (engine : Engine Regex) (past : Past Regex) (s t : State Regex) (act : Act)

@[simp] theorem bus_concat : bus (past ++ [(s, act, t)]) = bus past ++ busStep s act t := by
  simp [bus]

@[simp] theorem asked_concat : asked engine (past ++ [(s, act, t)]) =
    asked engine past ++ asks engine s act := by
  simp [asked]

end Concat

/-- The publishes of one publisher. -/
def jobsOf (p : Publisher) (found : List Asked) : List Job :=
  (found.filter fun a => a.p = p).map Asked.job

/-- The publish that the participant was not asked about yet. -/
def State.hand (s : State Regex) (p : Publisher) : List Job :=
  if s.told p then [] else (s.bus.places p).job.toList

/-! ### The participant -/

variable {engine : Engine Regex} {s t : State Regex} {act : Act} {past : Past Regex}

/-- What the handler heard, of the publishes that it was asked about. -/
structure Answered (heard : Heard) (found : List Asked) : Prop where
  delivered : heard.delivered = (found.filter Asked.selected).map fun a => a.job.frame
  received : heard.counters.received = found.length
  counted : heard.counters.delivered = heard.delivered.length
  discarded : heard.counters.received = heard.counters.delivered + heard.counters.discarded

theorem answered_zero : Answered ⟨.zero, []⟩ [] := ⟨rfl, rfl, rfl, rfl⟩

theorem Answered.concat {heard : Heard} {found : List Asked} (h : Answered heard found)
    (subscriptions : Subscriptions Regex) (p : Publisher) (job : Job) :
    Answered (onFrame engine subscriptions heard job.frame)
      (found ++ [⟨p, job, subscriptions.selects engine job.frame.channel⟩]) := by
  obtain ⟨hdelivered, hreceived, hcounted, hdiscarded⟩ := h
  unfold onFrame
  dsimp only
  split_ifs with hselects
  · constructor
    · simp [hdelivered, hselects]
    · simp [hreceived]
    · simp [hcounted]
    · simp only
      omega
  · constructor
    · simp [hdelivered, hselects]
    · simp [hreceived]
    · exact hcounted
    · simp only
      omega

/-- What holds of the participant in a state, and of all that led to it. -/
structure Told (engine : Engine Regex) (s : State Regex) (past : Past Regex) : Prop where
  kept : Kept engine s.bus (bus past)
  answered : Answered s.heard (asked engine past)
  behind : ∀ p, s.told p = true → ∃ job, s.bus.places p = .visits job []
  jobs : ∀ p, jobsOf p (asked engine past) ++ s.hand p = published p (bus past)

theorem told_start (subscriptions : Subscriptions Regex) : Told engine (start subscriptions) [] where
  kept := kept_start
  answered := answered_zero
  behind _ h := nomatch h
  jobs _ := rfl

/-- A publisher is behind the branch until it is idle. -/
theorem told_goes (s : State Regex) (a : Dispatch.Act) (u : Dispatch.State Regex) (p : Publisher) :
    (s.goes a u).told p = s.told p ∨ u.places p = .idle ∧ (s.goes a u).told p = false := by
  unfold State.goes
  split
  · rename_i q
    split
    · rename_i hidle
      rcases eq_or_ne p q with rfl | hne
      · exact .inr ⟨hidle, Function.update_self ..⟩
      · exact .inl (Function.update_of_ne hne _ _)
    · exact .inl rfl
  · exact .inl rfl

theorem bus_goes (s : State Regex) (a : Dispatch.Act) (u : Dispatch.State Regex) :
    (s.goes a u).bus = u ∧ (s.goes a u).heard = s.heard := by
  unfold State.goes
  split
  · split <;> exact ⟨rfl, rfl⟩
  · exact ⟨rfl, rfl⟩

/-- A publisher that goes on has its publish in hand, or is done with the participant and ends. -/
theorem Told.hand_step (h : Told engine s past) {a : Dispatch.Act} {u : Dispatch.State Regex}
    (hallows : s.allows a = true) (hu : Dispatch.step engine s.bus a = some u) (p : Publisher) :
    (s.goes a u).hand p = s.hand p ++ publishes p s.bus a u ∧
      ((s.goes a u).told p = true → ∃ job, u.places p = .visits job []) := by
  have hgoes := told_goes s a u p
  have hbehind := h.behind p
  have hbus := (bus_goes s a u).1
  unfold State.hand
  rw [hbus]
  -- One that is not behind the branch keeps its publish.
  have hsame : (s.told p = true → False) → (u.places p).job = (s.bus.places p).job →
      publishes p s.bus a u = [] → (if (s.goes a u).told p = true then [] else (u.places p).job.toList) =
        (if s.told p = true then [] else (s.bus.places p).job.toList) ++ publishes p s.bus a u ∧
      ((s.goes a u).told p = true → ∃ job, u.places p = .visits job []) := by
    intro hnot hjob hpublishes
    have htold : ¬ (s.goes a u).told p = true := by
      rcases hgoes with hgoes | ⟨-, hgoes⟩ <;> rw [hgoes]
      · exact hnot
      · exact Bool.false_ne_true
    rw [if_neg htold, if_neg hnot, hpublishes, List.append_nil, hjob]
    exact ⟨rfl, fun h => absurd h htold⟩
  rcases h.kept.cases hu p with ⟨hplace, hpublishes, -⟩ | ⟨hmoves, hpublishes, -⟩ |
    ⟨job, id, rest, call, hturns, hpublishes, -⟩
  · rw [hplace, hpublishes, List.append_nil]
    rcases hgoes with hgoes | ⟨hidle, hgoes⟩ <;> rw [hgoes]
    · exact ⟨rfl, hbehind⟩
    · rw [← hplace, hidle]
      exact ⟨by simp [Place.job], by simp⟩
  · have hother : s.told p = true → ∀ place, s.bus.places p = place → (∀ job, place ≠ .visits job []) →
        False := fun htold place hplace hne => by
      obtain ⟨job, hvisits⟩ := hbehind htold
      exact hne job (hplace ▸ hvisits)
    obtain ⟨place, hplace⟩ : ∃ place, s.bus.places p = place := ⟨_, rfl⟩
    obtain ⟨next, hnext⟩ : ∃ next, u.places p = next := ⟨_, rfl⟩
    rw [hplace, hnext] at hmoves
    rw [hplace, hnext] at hpublishes
    cases hmoves with
    | stays =>
      refine hsame (fun htold => hother htold _ hplace (by simp)) (by rw [hplace, hnext]) ?_
      exact hpublishes
    | @begins job number encoded =>
      have hfree : ¬ s.told p = true := fun htold => hother htold _ hplace (by simp)
      have htold : ¬ (s.goes a u).told p = true := by
        rcases hgoes with hgoes | ⟨-, hgoes⟩ <;> rw [hgoes]
        · exact hfree
        · exact Bool.false_ne_true
      rw [hplace, hnext, hpublishes, if_neg htold, if_neg hfree]
      exact ⟨rfl, fun h => absurd h htold⟩
    | snapshot | selects | passes =>
      refine hsame (fun htold => hother htold _ hplace (by simp)) (by rw [hplace, hnext]; rfl) ?_
      exact hpublishes
    | ends =>
      have hp : a.publisher = some p := by
        by_contra hp
        have hsame := place_of_other h.kept.listed h.kept.waiting hp hu
        rw [hplace, hnext] at hsame
        cases hsame
      obtain rfl := eq_visit_of_visits hp hu hplace
      have htold : s.told p = true := by
        simp only [State.allows, hplace, Bool.and_eq_true] at hallows
        exact hallows.1
      have hover : (s.goes (.visit p) u).told p = false := by
        simp [State.goes, hnext]
      rw [hplace, hnext, hpublishes, htold, hover]
      exact ⟨rfl, by simp⟩
  · refine hsame (fun htold => ?_) ?_ hpublishes
    · obtain ⟨found, hplace⟩ := hbehind htold
      have hrest := hturns.place.2.1
      rw [hplace] at hrest
      cases hrest
    · rw [hturns.place.1]
      rcases hturns.cases with ⟨hnext, -⟩ | ⟨hnext, -⟩ <;> rw [hnext] <;> rfl

/-- A step of the relay. -/
theorem Told.bus_step (h : Told engine s past) {a : Dispatch.Act}
    (hstep : Served.step engine s (.bus a) = some t) : Told engine t (past ++ [(s, .bus a, t)]) := by
  simp only [Served.step] at hstep
  split_ifs at hstep with hallows
  obtain ⟨u, hu, rfl⟩ := Option.map_eq_some_iff.1 hstep
  obtain ⟨hbus, hheard⟩ := bus_goes s a u
  have hnone : asked engine (past ++ [(s, .bus a, s.goes a u)]) = asked engine past := by
    rw [asked_concat]
    exact List.append_nil _
  have hpast : bus (past ++ [(s, .bus a, s.goes a u)]) = bus past ++ [(s.bus, a, u)] := by
    rw [bus_concat, busStep, hbus]
  constructor
  · rw [hpast, hbus]
    exact h.kept.step hu
  · rw [hnone, hheard]
    exact h.answered
  · rw [hbus]
    exact fun p => (h.hand_step hallows hu p).2
  · intro p
    rw [hnone, hpast, published_concat, ← h.jobs p, List.append_assoc, (h.hand_step hallows hu p).1]

/-- The branch of the participant. -/
theorem Told.hear_step (h : Told engine s past) {p : Publisher}
    (hstep : Served.step engine s (.hear p) = some t) : Told engine t (past ++ [(s, .hear p, t)]) := by
  simp only [Served.step] at hstep
  split at hstep
  · rename_i job hplace
    split_ifs at hstep with hfree
    cases hstep
    have hasks : asks engine s (.hear p) =
        [⟨p, job, s.subscriptions.selects engine job.frame.channel⟩] := by
      simp [asks, hplace, Place.job]
    have hbus : ∀ v, bus (past ++ [(s, .hear p, v)]) = bus past := fun v => by
      rw [bus_concat]
      exact List.append_nil _
    constructor
    · rw [hbus]
      exact h.kept
    · rw [asked_concat, hasks]
      exact h.answered.concat _ _ _
    · intro q hq
      rcases eq_or_ne q p with rfl | hne
      · exact ⟨job, hplace⟩
      · exact h.behind q ((Function.update_of_ne hne _ _).symm.trans hq)
    · intro q
      rw [hbus, asked_concat, hasks, ← h.jobs q, jobsOf, List.filter_append, List.map_append, ← jobsOf,
        List.append_assoc]
      congr 1
      rcases eq_or_ne q p with rfl | hne
      · simp [State.hand, hfree, hplace, Place.job]
      · simp [State.hand, Function.update_of_ne hne, hne.symm]
  · cases hstep

/-- An operation on the subscriptions of the participant. -/
theorem Told.same (h : Told engine s past) (hbus : t.bus = s.bus) (hheard : t.heard = s.heard)
    (htold : t.told = s.told) (hstep : busStep s act t = []) (hasks : asks engine s act = []) :
    Told engine t (past ++ [(s, act, t)]) := by
  have hpast : bus (past ++ [(s, act, t)]) = bus past := by rw [bus_concat, hstep, List.append_nil]
  have hnone : asked engine (past ++ [(s, act, t)]) = asked engine past := by
    rw [asked_concat, hasks, List.append_nil]
  constructor
  · rw [hpast, hbus]
    exact h.kept
  · rw [hnone, hheard]
    exact h.answered
  · rw [hbus, htold]
    exact h.behind
  · unfold State.hand
    rw [hpast, hnone, hbus, htold]
    exact h.jobs

/-- **No step of any thread asks the participant about a publish twice, or about none.** -/
theorem Told.step (h : Told engine s past) (hstep : Served.step engine s act = some t) :
    Told engine t (past ++ [(s, act, t)]) := by
  cases act with
  | bus a => exact h.bus_step hstep
  | hear p => exact h.hear_step hstep
  | subscribeName | subscribe =>
    simp only [Served.step] at hstep
    split at hstep <;> cases hstep <;> exact h.same rfl rfl rfl rfl rfl
  | unsubscribe =>
    cases hstep
    exact h.same rfl rfl rfl rfl rfl

/-! ### Every run -/

/-- What a step is for the relay. -/
theorem covered_step {p : Publisher} (h : Covered engine p s.bus (bus past))
    (htold : Told engine s past) (hstep : Served.step engine s act = some t) :
    Covered engine p t.bus (bus (past ++ [(s, act, t)])) := by
  have hsame : t.bus = s.bus → busStep s act t = [] →
      Covered engine p t.bus (bus (past ++ [(s, act, t)])) := fun hbus hnone => by
    rw [bus_concat, hnone, List.append_nil, hbus]
    exact h
  cases act with
  | bus a =>
    simp only [Served.step] at hstep
    split_ifs at hstep
    obtain ⟨u, hu, rfl⟩ := Option.map_eq_some_iff.1 hstep
    rw [bus_concat, busStep, (bus_goes s a u).1]
    exact h.step htold.kept hu
  | hear p =>
    simp only [Served.step] at hstep
    split at hstep
    · split_ifs at hstep
      cases hstep
      exact hsame rfl rfl
    · cases hstep
  | subscribeName | subscribe =>
    simp only [Served.step] at hstep
    split at hstep <;> cases hstep <;> exact hsame rfl rfl
  | unsubscribe =>
    cases hstep
    exact hsame rfl rfl

theorem told_of_run {subscriptions : Subscriptions Regex} {acts : List Act}
    (hrun : Machine.run (step engine) (start subscriptions) acts = some s) :
    let past := Machine.transitions (step engine) (start subscriptions) acts
    Told engine s past ∧ ∀ p, Covered engine p s.bus (bus past) := by
  intro past
  have hhistory := Machine.run_history
    (P := fun s past => Told engine s past ∧ ∀ p, Covered engine p s.bus (bus past))
    (fun _ _ _ _ h hstep => ⟨h.1.step hstep, fun p => covered_step (h.2 p) h.1 hstep⟩)
    (⟨told_start subscriptions, covered_start⟩ : _ ∧ ∀ p, Covered engine p Dispatch.start []) hrun
  rwa [List.nil_append] at hhistory

end LcmBus.Served
