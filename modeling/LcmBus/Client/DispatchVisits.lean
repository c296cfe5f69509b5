import LcmBus.Client.DispatchOrder

/-!
# The peers that a publisher comes to

The loop of `Served::dispatch` over the list that it cloned: it comes to each peer on it once, and each
visit has one of three outcomes.

* `Visit` and `visited`: of a past, the peers that a publisher is done with, and what came of each;
* `cloned`: the lists that it cloned, each for one publish;
* `Covered` and `Covered.step`: what it is done with and what it has in hand are these lists, in their
  order.
-/

namespace LcmBus

open Outbox

/-! ### Why a message is refused -/

namespace Outbox

/-- A message is refused by an outbox that is closed, or behind its deadline. -/
theorem Queue.refused_of_messageTurn {q : Queue} {ticket : ℕ} {frame : Bytes} {late : Bool}
    {why : Refused} (h : (q.messageTurn ticket frame late).1 = .refused why) :
    q.isOpen = false ∨ late = true := by
  unfold Queue.messageTurn at h
  split_ifs at h with hclosed hroom hlate
  · exact .inl hclosed
  · exact .inr hlate

/-- A turn that ends a call with nothing let in is one that refuses it. -/
theorem refused_of_turn {s : State} {call ticket : ℕ} {frame : Bytes} {late : Bool}
    (hover : (s.turn call (.message ticket frame) late).calls call = none)
    (hnone : entered .message s (s.turn call (.message ticket frame) late) = []) :
    s.queue.isOpen = false ∨ late = true := by
  rw [entered_turn] at hnone
  unfold State.turn at hover
  dsimp only at hover
  rw [Function.update_self] at hover
  cases hturn : (Call.turn (.message ticket frame) s.queue late).1 with
  | through =>
    rw [if_pos ⟨hturn, rfl⟩] at hnone
    cases hnone
  | waits =>
    rw [if_pos hturn] at hover
    cases hover
  | refused why => exact Queue.refused_of_messageTurn hturn

/-- So it is in the two steps that a publish has there. -/
theorem refused_of_step {s t : State} {act : Act} {call : ℕ} {frame : Bytes} {late : Bool}
    (hact : act = .putMessage call frame late ∨ act = .wake call late ∧
      ∃ ticket, s.calls call = some (.message ticket frame))
    (hstep : step s act = some t) (hover : t.calls call = none) (hnone : entered .message s t = []) :
    s.queue.isOpen = false ∨ late = true := by
  rcases hact with rfl | ⟨rfl, ticket, hcall⟩
  · simp only [step] at hstep
    split_ifs at hstep
    cases hstep
    -- The ticket and the line are no matter to it.
    let entering : State := { s with queue := s.queue.enter.2 }
    exact refused_of_turn (s := entering) hover hnone
  · rw [step, hcall] at hstep
    cases hstep
    exact refused_of_turn hover hnone

end Outbox

namespace Dispatch

variable {Regex : Type} {engine : Engine Regex} {s t : State Regex} {act : Act} {p : Publisher}

/-! ### Visits -/

/-- What comes of a peer that a publisher comes to. -/
inductive Outcome
  /-- Its rules do not select the channel. -/
  | passed
  /-- `put_message` gives an error, which is dropped. -/
  | refused
  | admitted
  deriving DecidableEq, Repr

/-- One peer that a publisher is done with. -/
structure Visit where
  job : Job
  id : ℕ
  outcome : Outcome
  deriving DecidableEq, Repr

/-- What came of a call that is over. -/
def outcomeOf (id : ℕ) (s t : State Regex) : Outcome :=
  if entered .message (outboxOf s.relay id) (outboxOf t.relay id) = [] then .refused else .admitted

/-- The peer that a step of a publisher is done with. -/
def visits (p : Publisher) (s : State Regex) (act : Act) (t : State Regex) : List Visit :=
  if act.publisher = some p then
    match s.places p, t.places p with
    | .visits job (id :: _), .visits _ _ => [⟨job, id, .passed⟩]
    | .puts job id _, .visits _ _ | .waits job id _ _, .visits _ _ => [⟨job, id, outcomeOf id s t⟩]
    | _, _ => []
  else []

/-- All that a publisher is done with, in its order. -/
def visited (p : Publisher) (past : List (State Regex × Act × State Regex)) : List Visit :=
  past.flatMap fun (s, act, t) => visits p s act t

/-- The list that a step clones, with the publish it is for. -/
def clones (p : Publisher) (s : State Regex) (act : Act) (t : State Regex) : List (Job × List ℕ) :=
  if act.publisher = some p then
    match s.places p, t.places p with
    | .dispatches job, .visits _ _ => [(job, s.relay.peers)]
    | _, _ => []
  else []

/-- The lists that a publisher cloned. -/
def cloned (p : Publisher) (past : List (State Regex × Act × State Regex)) : List (Job × List ℕ) :=
  past.flatMap fun (s, act, t) => clones p s act t

/-- The peers of a list, each with the publish. -/
def eachOf (found : Job × List ℕ) : List (Job × ℕ) := found.2.map fun id => (found.1, id)

/-- The deadline of the call went by. -/
def Act.late : Act → Bool
  | .put _ _ late | .wake _ late => late
  | _ => false

/-- The publish for which no list was cloned yet. -/
def Place.fresh : Place → List Job
  | .dispatches job => [job]
  | _ => []

/-- The peers that the publisher has not come to, or is at. -/
def Place.pending (place : Place) : List (Job × ℕ) :=
  place.job.toList.flatMap fun job => eachOf (job, place.rest)

section Concat

variable (p : Publisher) (past : List (State Regex × Act × State Regex)) (s t : State Regex) (act : Act)

@[simp] theorem visited_concat :
    visited p (past ++ [(s, act, t)]) = visited p past ++ visits p s act t := by
  simp [visited]

@[simp] theorem cloned_concat :
    cloned p (past ++ [(s, act, t)]) = cloned p past ++ clones p s act t := by
  simp [cloned]

end Concat

/-- The rules of the peer did not select the channel, where the publisher tested them. -/
def PassedOver (engine : Engine Regex) (p : Publisher) (job : Job) (id : ℕ)
    (past : List (State Regex × Act × State Regex)) : Prop :=
  ∃ u v rest, (u, Act.visit p, v) ∈ past ∧ u.places p = .visits job (id :: rest) ∧
    (u.subscriptions id).selects engine job.frame.channel = false

/-- The step of the publisher that ended its call let nothing in: the outbox of the peer was closed, or the
deadline of that call had gone by. -/
def TurnedAway (p : Publisher) (job : Job) (id : ℕ)
    (past : List (State Regex × Act × State Regex)) : Prop :=
  ∃ u act v, (u, act, v) ∈ past ∧ act.publisher = some p ∧
    visits p u act v = [⟨job, id, .refused⟩] ∧
    ((outboxOf u.relay id).queue.isOpen = false ∨ act.late = true)

/-- The message was let into the outbox of the peer. -/
def LetIn (p : Publisher) (job : Job) (id : ℕ) (past : List (State Regex × Act × State Regex)) : Prop :=
  (job, job.encoded) ∈ admitted p id past

/-- Why a peer was visited with an outcome. -/
def Outcome.Holds (engine : Engine Regex) (p : Publisher) (job : Job) (id : ℕ)
    (past : List (State Regex × Act × State Regex)) : Outcome → Prop
  | .passed => PassedOver engine p job id past
  | .refused => TurnedAway p job id past
  | .admitted => LetIn p job id past

/-! ### What a step of a publisher comes to -/

/-- A publisher is where it was behind a step of another thread. -/
theorem place_of_other (hlisted : Serve.Listed s.relay) (hwaiting : Waiting s)
    (hp : act.publisher ≠ some p) (hstep : step engine s act = some t) : t.places p = s.places p := by
  cases hother : act.publisher with
  | none => exact congrFun (other_step hlisted hother hstep).1 p
  | some other =>
    have hne : p ≠ other := fun heq => hp (heq ▸ hother)
    exact (own_step hwaiting hother hstep).1 p hne

/-- No list that was cloned has a peer twice. -/
theorem nodup_of_clones (hlisted : Serve.Listed s.relay) : ∀ found ∈ clones p s act t, found.2.Nodup := by
  intro found hfound
  unfold clones at hfound
  split_ifs at hfound
  · split at hfound
    · rw [List.mem_singleton.1 hfound]
      exact hlisted.nodup
    · cases hfound
  · cases hfound

/-- At the head of its loop a publisher goes on with a visit. -/
theorem eq_visit_of_visits {job : Job} {rest : List ℕ} (hp : act.publisher = some p)
    (hstep : step engine s act = some t) (hplace : s.places p = .visits job rest) : act = .visit p := by
  cases act with
  | arrive | relay => cases hp
  | request | publish | snapshot | put | wake =>
    cases hp
    simp [step, hplace] at hstep
  | visit =>
    cases hp
    rfl

/-- A peer is passed over by a test of its rules. -/
theorem selects_of_passes {job : Job} {id : ℕ} {rest rest' : List ℕ} (hp : act.publisher = some p)
    (hstep : step engine s act = some t) (hplace : s.places p = .visits job (id :: rest))
    (hnext : t.places p = .visits job rest') :
    (s.subscriptions id).selects engine job.frame.channel = false := by
  rw [eq_visit_of_visits hp hstep hplace] at hstep
  simp only [step, hplace, Option.some.injEq] at hstep
  rw [← hstep, places_goes] at hnext
  split_ifs at hnext with hselects
  exact Bool.eq_false_iff.2 hselects

/-- A call that is over with nothing let in was refused. -/
theorem refused_of_turns {job : Job} {id : ℕ} {rest rest' : List ℕ} (hwaiting : Waiting s)
    (hp : act.publisher = some p) (hstep : step engine s act = some t)
    (hplace : s.places p = .puts job id rest ∨ ∃ call, s.places p = .waits job id rest call)
    (hnext : t.places p = .visits job rest')
    (hnone : entered .message (outboxOf s.relay id) (outboxOf t.relay id) = []) :
    (outboxOf s.relay id).queue.isOpen = false ∨ act.late = true := by
  -- The call is over, as it would wait under its name otherwise.
  have hover : ∀ {u : State Regex} {call}, u.turned p job id rest call = t →
      (outboxOf u.relay id).calls call = none ∧ u.relay = t.relay := by
    rintro u call rfl
    rw [State.turned, places_goes] at hnext
    split_ifs at hnext with hnone
    exact ⟨Option.isNone_iff_eq_none.1 hnone, rfl⟩
  cases act with
  | arrive | relay => cases hp
  | request | publish | snapshot | visit =>
    cases hp
    rcases hplace with hplace | ⟨call, hplace⟩ <;> simp [step, hplace] at hstep
  | put q call late =>
    cases hp
    rcases hplace with hplace | ⟨call', hplace⟩ <;> simp only [step, hplace] at hstep
    · obtain ⟨relay, hrelay, hturned⟩ := Option.map_eq_some_iff.1 hstep
      obtain ⟨hfree, hsame⟩ := hover hturned
      rw [← hsame] at hnone
      exact refused_of_step (.inl rfl) (Serve.call_step hrelay).1 hfree hnone
    · cases hstep
  | wake q late =>
    cases hp
    rcases hplace with hplace | ⟨call, hplace⟩ <;> simp only [step, hplace] at hstep
    · cases hstep
    · obtain ⟨relay, hrelay, hturned⟩ := Option.map_eq_some_iff.1 hstep
      obtain ⟨hfree, hsame⟩ := hover hturned
      rw [← hsame] at hnone
      exact refused_of_step (.inr ⟨rfl, hwaiting p _ _ _ _ hplace⟩) (Serve.call_step hrelay).1 hfree hnone

/-! ### All of the peers -/

/-- What holds of a publisher in a state, and of all that led to it. -/
structure Covered (engine : Engine Regex) (p : Publisher) (s : State Regex)
    (past : List (State Regex × Act × State Regex)) : Prop where
  nodup : ∀ found ∈ cloned p past, found.2.Nodup
  jobs : (cloned p past).map Prod.fst ++ (s.places p).fresh = published p past
  peers : (visited p past).map (fun v => (v.job, v.id)) ++ (s.places p).pending =
    (cloned p past).flatMap eachOf
  letIn : ∀ id, admitted p id past =
    ((visited p past).filter fun v => v.id = id ∧ v.outcome = .admitted).map fun v => (v.job, v.job.encoded)
  holds : ∀ v ∈ visited p past, v.outcome.Holds engine p v.job v.id past

theorem covered_start (p : Publisher) : Covered engine p start [] :=
  ⟨fun _ h => (nomatch h), rfl, rfl, fun _ => rfl, fun _ h => nomatch h⟩

theorem Outcome.Holds.concat {outcome : Outcome} {job : Job} {id : ℕ}
    {past : List (State Regex × Act × State Regex)} (h : outcome.Holds engine p job id past)
    (m : State Regex × Act × State Regex) : outcome.Holds engine p job id (past ++ [m]) := by
  cases outcome with
  | passed =>
    obtain ⟨u, v, rest, hmem, hplace⟩ := h
    exact ⟨u, v, rest, List.mem_append_left _ hmem, hplace⟩
  | refused =>
    obtain ⟨u, found, v, hmem, hvisits⟩ := h
    exact ⟨u, found, v, List.mem_append_left _ hmem, hvisits⟩
  | admitted =>
    obtain ⟨u, found, v⟩ := m
    unfold Outcome.Holds LetIn at h ⊢
    rw [admitted_concat]
    exact List.mem_append_left _ h

namespace Covered

variable {past : List (State Regex × Act × State Regex)}

/-- A step at which the publisher is done with no peer. -/
theorem still (h : Covered engine p s past) (hlisted : Serve.Listed s.relay)
    (hjobs : (clones p s act t).map Prod.fst ++ (t.places p).fresh =
      (s.places p).fresh ++ publishes p s act t)
    (hpeers : (t.places p).pending = (s.places p).pending ++ (clones p s act t).flatMap eachOf)
    (hvisits : visits p s act t = []) (hadmits : ∀ id, admits p id s act t = []) :
    Covered engine p t (past ++ [(s, act, t)]) := by
  constructor
  · intro found hfound
    rw [cloned_concat] at hfound
    exact (List.mem_append.1 hfound).elim (h.nodup found) (nodup_of_clones hlisted found)
  · rw [cloned_concat, published_concat, ← h.jobs, List.map_append, List.append_assoc, hjobs,
      List.append_assoc]
  · rw [visited_concat, cloned_concat, hvisits, List.append_nil, hpeers, ← List.append_assoc, h.peers,
      List.flatMap_append]
  · intro id
    rw [admitted_concat, visited_concat, hvisits, hadmits, List.append_nil, List.append_nil, h.letIn]
  · intro v hv
    rw [visited_concat, hvisits, List.append_nil] at hv
    exact (h.holds v hv).concat _

/-- A step at which it is done with one. -/
theorem done (h : Covered engine p s past) {v : Visit} (hplace : (s.places p).fresh = [])
    (hnext : (t.places p).fresh = []) (hpublishes : publishes p s act t = [])
    (hclones : clones p s act t = [])
    (hpeers : (s.places p).pending = (v.job, v.id) :: (t.places p).pending)
    (hvisits : visits p s act t = [v]) (hholds : v.outcome.Holds engine p v.job v.id (past ++ [(s, act, t)]))
    (hadmits : ∀ id, admits p id s act t =
      if v.id = id ∧ v.outcome = .admitted then [(v.job, v.job.encoded)] else []) :
    Covered engine p t (past ++ [(s, act, t)]) := by
  have hjobs := h.jobs
  have hall := h.peers
  rw [hplace, List.append_nil] at hjobs
  rw [hpeers] at hall
  constructor
  · rw [cloned_concat, hclones, List.append_nil]
    exact h.nodup
  · rw [cloned_concat, published_concat, hclones, hpublishes, List.append_nil, List.append_nil, hnext,
      List.append_nil, hjobs]
  · rw [visited_concat, cloned_concat, hclones, hvisits, List.append_nil, ← hall, List.map_append,
      List.append_assoc]
    rfl
  · intro id
    rw [admitted_concat, visited_concat, hvisits, hadmits, h.letIn, List.filter_append, List.map_append]
    congr 1
    by_cases hid : v.id = id ∧ v.outcome = .admitted
    · rw [if_pos hid, List.filter_cons_of_pos (by simpa using hid)]
      rfl
    · rw [if_neg hid, List.filter_cons_of_neg (by simpa using hid)]
      rfl
  · intro found hfound
    rw [visited_concat, hvisits] at hfound
    rcases List.mem_append.1 hfound with hfound | hfound
    · exact (h.holds found hfound).concat _
    · rw [List.mem_singleton.1 hfound]
      exact hholds

/-- A step of another thread. -/
theorem other (h : Covered engine p s past) (hlisted : Serve.Listed s.relay)
    (hp : act.publisher ≠ some p)
    (hplace : t.places p = s.places p) : Covered engine p t (past ++ [(s, act, t)]) := by
  refine h.still hlisted ?_ ?_ (if_neg hp) fun id => if_neg hp
  · rw [clones, publishes, if_neg hp, if_neg fun h => hp h.1, hplace]
    simp
  · rw [clones, if_neg hp, hplace]
    simp

/-- **No step of any thread loses a peer of a list that was cloned, or comes to one twice.** -/
theorem step (h : Covered engine p s past) (hkept : Kept engine s past)
    (hstep : Dispatch.step engine s act = some t) : Covered engine p t (past ++ [(s, act, t)]) := by
  by_cases hp : act.publisher = some p
  swap
  · exact h.other hkept.listed hp (place_of_other hkept.listed hkept.waiting hp hstep)
  have hvisits : visits p s act t = match s.places p, t.places p with
      | .visits job (id :: _), .visits _ _ => [⟨job, id, .passed⟩]
      | .puts job id _, .visits _ _ | .waits job id _ _, .visits _ _ => [⟨job, id, outcomeOf id s t⟩]
      | _, _ => [] := if_pos hp
  have hclones : clones p s act t = match s.places p, t.places p with
      | .dispatches job, .visits _ _ => [(job, s.relay.peers)]
      | _, _ => [] := if_pos hp
  have hpublishes : publishes p s act t = if s.places p = .idle then (t.places p).job.toList else [] := by
    simp [publishes, hp]
  obtain ⟨-, ⟨hrelay, hmoves⟩ | ⟨job, id, rest, call, hturns⟩⟩ := own_step hkept.waiting hp hstep
  · have hadmits : ∀ id, admits p id s act t = [] := fun id => by
      have hentered := (Quiet.refl (outboxOf s.relay id)).2 .message
      simp [admits, hrelay, hentered]
    obtain ⟨place, hplace⟩ : ∃ place, s.places p = place := ⟨_, rfl⟩
    obtain ⟨next, hnext⟩ : ∃ next, t.places p = next := ⟨_, rfl⟩
    rw [hplace, hnext] at hmoves hvisits hclones
    rw [hplace, hnext] at hpublishes
    cases hmoves with
    | stays | begins =>
      refine h.still hkept.listed ?_ ?_ hvisits hadmits <;> rw [hclones, hplace, hnext]
      · rw [hpublishes]
        rfl
      · rfl
    | snapshot =>
      refine h.still hkept.listed ?_ ?_ hvisits hadmits <;> rw [hclones, hplace, hnext]
      · rw [hpublishes]
        rfl
      · simp [Place.pending, Place.job, Place.rest, eachOf]
    | selects | ends =>
      refine h.still hkept.listed ?_ ?_ hvisits hadmits <;> rw [hclones, hplace, hnext]
      · rw [hpublishes]
        rfl
      · exact (List.append_nil _).symm
    | @passes job id rest =>
      refine h.done (by rw [hplace]; rfl) (by rw [hnext]; rfl) hpublishes hclones
        (by rw [hplace, hnext]; rfl) hvisits ?_ fun i => (hadmits i).trans (if_neg (by simp)).symm
      obtain rfl := eq_visit_of_visits hp hstep hplace
      exact ⟨s, t, rest, by simp, hplace, selects_of_passes hp hstep hplace hnext⟩
  · have hplace : s.places p = .puts job id rest ∨ ∃ call, s.places p = .waits job id rest call :=
      hturns.before.imp And.left fun h => ⟨call, h⟩
    obtain ⟨hjob, hrest, hidle⟩ := hturns.place
    have hfresh : (s.places p).fresh = [] := by
      rcases hplace with hplace | ⟨call, hplace⟩ <;> rw [hplace] <;> rfl
    have hpending : (s.places p).pending = (job, id) :: eachOf (job, rest) := by
      rw [Place.pending, hjob, hrest]
      simp [eachOf]
    rw [if_neg hidle] at hpublishes
    have hnone : clones p s act t = [] := by
      rw [hclones]
      rcases hplace with hplace | ⟨call, hplace⟩ <;> rw [hplace]
    have hadmits : ∀ i, admits p i s act t =
        (entered .message (outboxOf s.relay i) (outboxOf t.relay i)).map fun frame => (job, frame) :=
      fun i => by simp [admits, hp, hjob]
    have hquiet : ∀ i ≠ id, admits p i s act t = [] := fun i hi => by
      rw [hadmits, hturns.others i hi, (Quiet.refl _).2 .message]
      rfl
    rcases hturns.cases with ⟨hnext, hentered⟩ | ⟨hnext, -, hentered⟩
    · have hdone : visits p s act t = [⟨job, id, outcomeOf id s t⟩] := by
        rw [hvisits, hnext]
        rcases hplace with hplace | ⟨call, hplace⟩ <;> rw [hplace]
      refine h.done (v := ⟨job, id, outcomeOf id s t⟩) hfresh (by rw [hnext]; rfl) hpublishes hnone ?_
        hdone ?_ fun i => ?_
      · rw [hpending, hnext]
        simp [Place.pending, Place.job, Place.rest]
      · unfold outcomeOf
        split_ifs with hrefused
        · have hvisit : visits p s act t = [⟨job, id, .refused⟩] := by
            rw [hdone, outcomeOf, if_pos hrefused]
          exact ⟨s, act, t, by simp, hp, hvisit,
            refused_of_turns hkept.waiting hp hstep hplace hnext hrefused⟩
        · show (job, job.encoded) ∈ admitted p id _
          rw [admitted_concat, hadmits, hentered.resolve_left hrefused]
          simp
      · by_cases hi : id = i
        · subst hi
          rw [hadmits, outcomeOf]
          rcases hentered with hentered | hentered <;> rw [hentered] <;> simp
        · rw [hquiet i (Ne.symm hi), if_neg fun h => hi h.1]
    · refine h.still hkept.listed ?_ ?_ ?_ fun i => ?_
      · rw [hnone, hfresh, hnext, hpublishes]
        rfl
      · rw [hpending, hnext, hnone]
        simp [Place.pending, Place.job, Place.rest, eachOf]
      · rw [hvisits, hnext]
        rcases hplace with hplace | ⟨call, hplace⟩ <;> rw [hplace]
      · by_cases hi : i = id
        · rw [hadmits, hi, hentered]
          rfl
        · exact hquiet i hi

end Covered

end Dispatch

end LcmBus
