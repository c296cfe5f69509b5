import LcmBus.Client.DispatchSteps
import LcmBus.Wire.TcpqFormat

/-!
# The order of a publisher, at each peer

The fan-out keeps the order of each publisher, and copies each message at most once to a peer.

* `Fair`: of a publisher at a peer, what was let in is a part of what was published, and the publish
  in hand is in that only behind the visit of the peer;
* `Kept.step`: no step of any thread takes a publisher out of its order;
* `Sent.step`: the publishes of a peer are those in the bytes that came from it;
* `keeps_order`: behind every run.
-/

namespace LcmBus

open Outbox

namespace Dispatch

variable {Regex : Type} {engine : Engine Regex} {s t : State Regex} {act : Act} {p : Publisher}

/-! ### One publisher, at one peer -/

/-- The peers a publisher has not come to, of those it cloned. -/
def Place.rest : Place → List ℕ
  | .idle | .dispatches _ => []
  | .visits _ rest => rest
  | .puts _ id rest | .waits _ id rest _ => id :: rest

/-- The publish in hand may come to a peer yet. -/
def Place.ahead (id : ℕ) : Place → Prop
  | .dispatches _ => True
  | place => id ∈ place.rest

/-- What was let into a peer is a part of what was published, in its order, and the publish in hand is
in that only behind the visit of the peer. -/
structure Fair (place : Place) (published admitted : List Job) (id : ℕ) : Prop where
  part : admitted.Sublist published
  inHand : ∀ job, place.job = some job → ∃ before, published = before ++ [job] ∧
    (place.ahead id → admitted.Sublist before)
  nodup : place.rest.Nodup

namespace Fair

variable {place next : Place} {published admitted : List Job} {id : ℕ}

/-- The publisher goes on with what it has in hand. -/
theorem mono (h : Fair place published admitted id) (hjob : next.job = place.job)
    (hahead : next.ahead id → place.ahead id) (hnodup : next.rest.Nodup) :
    Fair next published admitted id := by
  refine ⟨h.part, fun job hnext => ?_, hnodup⟩
  obtain ⟨before, hbefore, hadmitted⟩ := h.inHand job (hjob ▸ hnext)
  exact ⟨before, hbefore, fun h => hadmitted (hahead h)⟩

/-- A step at no outbox. -/
theorem moves (h : Fair place published admitted id) (hpeers : s.relay.peers.Nodup)
    (hmoves : Moves engine s p act place next) :
    Fair next (published ++ if place = .idle then next.job.toList else []) admitted id := by
  cases hmoves with
  | stays => simpa [Place.job] using h
  | begins =>
    refine ⟨h.part.trans (List.sublist_append_left _ _), fun job hjob => ?_, List.nodup_nil⟩
    cases hjob
    exact ⟨published, rfl, fun _ => h.part⟩
  | snapshot =>
    simp only [reduceCtorEq, if_false, List.append_nil]
    exact h.mono rfl (fun _ => trivial) hpeers
  | selects =>
    simp only [reduceCtorEq, if_false, List.append_nil]
    exact h.mono rfl (fun hid => hid) h.nodup
  | passes =>
    simp only [reduceCtorEq, if_false, List.append_nil]
    exact h.mono rfl (fun hid => List.mem_cons_of_mem _ hid) (List.nodup_cons.1 h.nodup).2
  | ends =>
    simp only [reduceCtorEq, if_false, List.append_nil]
    exact ⟨h.part, (fun _ hjob => nomatch hjob), List.nodup_nil⟩

/-- The peer of a turn of `put_message` is behind the publisher, where its frame is let in. -/
theorem turn (h : Fair place published admitted id) {job : Job} {rest : List ℕ}
    (hjob : place.job = some job) (hrest : place.rest = id :: rest) :
    Fair (.visits job rest) published (admitted ++ [job]) id := by
  obtain ⟨before, hbefore, hadmitted⟩ := h.inHand job hjob
  have hahead : place.ahead id := by
    cases place with
    | dispatches => trivial
    | idle | visits | puts | waits =>
      show id ∈ Place.rest _
      rw [hrest]
      exact List.mem_cons_self
  have hnodup := h.nodup
  rw [hrest] at hnodup
  refine ⟨?_, fun found hfound => ?_, (List.nodup_cons.1 hnodup).2⟩
  · rw [hbefore]
    exact (hadmitted hahead).append (List.Sublist.refl _)
  · cases hfound
    exact ⟨before, hbefore, fun hid => absurd hid (List.nodup_cons.1 hnodup).1⟩

end Fair

namespace Turns

variable {job : Job} {id : ℕ} {rest : List ℕ} {call : ℕ}

/-- Where the publisher was. -/
theorem place (h : Turns s t p job id rest call) : (s.places p).job = some job ∧
    (s.places p).rest = id :: rest ∧ s.places p ≠ .idle := by
  rcases h.before with ⟨hplace, -⟩ | hplace <;> rw [hplace] <;> exact ⟨rfl, rfl, by simp⟩

/-- And where it is, with what it let in. -/
theorem cases (h : Turns s t p job id rest call) :
    (t.places p = .visits job rest ∧
      (entered .message (outboxOf s.relay id) (outboxOf t.relay id) = [] ∨
        entered .message (outboxOf s.relay id) (outboxOf t.relay id) = [job.encoded])) ∨
    (t.places p = .waits job id rest call ∧
      (∃ ticket, (outboxOf t.relay id).calls call = some (.message ticket job.encoded)) ∧
        entered .message (outboxOf s.relay id) (outboxOf t.relay id) = []) := by
  have hbehind := h.behind
  rcases h.turn.outcome with ⟨hnone, hentered⟩ | ⟨ticket, hsome, hentered⟩
  · rw [hnone] at hbehind
    exact .inl ⟨hbehind, hentered⟩
  · rw [hsome] at hbehind
    exact .inr ⟨hbehind, ⟨ticket, hsome⟩, hentered⟩

end Turns

/-! ### All of them -/

/-- No two publishes wait in an outbox under one name. -/
def Apart (s : State Regex) : Prop :=
  ∀ p p' job job' id rest rest' call, s.places p = .waits job id rest call →
    s.places p' = .waits job' id rest' call → p = p'

/-- The call of a turn is no other publisher's. -/
theorem Turns.call_ne {job job' : Job} {id : ℕ} {rest rest' : List ℕ} {call call' : ℕ}
    (h : Turns s t p job id rest call) (hwaiting : Waiting s) (hapart : Apart s) {other : Publisher}
    (hne : other ≠ p) (hother : s.places other = .waits job' id rest' call') : call' ≠ call := by
  rintro rfl
  rcases h.before with ⟨-, hfree⟩ | hplace
  · obtain ⟨ticket, hcall⟩ := hwaiting _ _ _ _ _ hother
    exact nomatch hfree.symm.trans hcall
  · exact hne (hapart _ _ _ _ _ _ _ _ hother hplace)

/-- The calls of the publishers stay where they are, each under a name of its own. -/
theorem waits_step (hlisted : Serve.Listed s.relay) (hwaiting : Waiting s) (hapart : Apart s)
    (hstep : step engine s act = some t) : Waiting t ∧ Apart t := by
  cases hp : act.publisher with
  | none =>
    obtain ⟨hplaces, -, hquiet⟩ := other_step hlisted hp hstep
    rw [Waiting, Apart, hplaces]
    refine ⟨fun p job id rest call hplace => ?_, hapart⟩
    rw [(hquiet id).1]
    exact hwaiting p job id rest call hplace
  | some p =>
    obtain ⟨hothers, ⟨hrelay, hmoves⟩ | ⟨job, id, rest, call, hturns⟩⟩ := own_step hwaiting hp hstep
    · have hnot : ∀ job id rest call, t.places p ≠ .waits job id rest call := by
        intro job id rest call hplace
        rw [hplace] at hmoves
        generalize s.places p = place at hmoves
        cases hmoves
      have hback : ∀ {q job id rest call}, t.places q = .waits job id rest call →
          s.places q = .waits job id rest call := fun {q job id rest call} hplace => by
        rcases eq_or_ne q p with rfl | hne
        · exact absurd hplace (hnot _ _ _ _)
        · exact (hothers q hne).symm.trans hplace
      rw [Waiting, hrelay]
      exact ⟨fun q job id rest call hplace => hwaiting q job id rest call (hback hplace),
        fun q q' job job' id rest rest' call hq hq' =>
          hapart q q' job job' id rest rest' call (hback hq) (hback hq')⟩
    · have hown : ∀ {job' id' rest' call'}, t.places p = .waits job' id' rest' call' →
          id' = id ∧ call' = call ∧ job' = job ∧
            ∃ ticket, (outboxOf t.relay id).calls call = some (.message ticket job.encoded) := by
        intro job' id' rest' call' hplace
        rcases hturns.cases with ⟨hnext, -⟩ | ⟨hnext, hcall, -⟩ <;> rw [hnext] at hplace <;>
          cases hplace
        exact ⟨rfl, rfl, rfl, hcall⟩
      refine ⟨fun q job' id' rest' call' hq => ?_, fun q q' job' job'' id' rest' rest'' call' hq hq' => ?_⟩
      · rcases eq_or_ne q p with rfl | hne
        · obtain ⟨rfl, rfl, rfl, hcall⟩ := hown hq
          exact hcall
        · rw [hothers q hne] at hq
          obtain ⟨ticket, hcall⟩ := hwaiting q job' id' rest' call' hq
          refine ⟨ticket, ?_⟩
          rcases eq_or_ne id' id with rfl | hid
          · rwa [hturns.turn.others call' (hturns.call_ne hwaiting hapart hne hq)]
          · rwa [hturns.others id' hid]
      · by_cases hne : q = p <;> by_cases hne' : q' = p
        · rw [hne, hne']
        · rw [hne] at hq ⊢
          obtain ⟨rfl, rfl, -, -⟩ := hown hq
          rw [hothers q' hne'] at hq'
          exact absurd rfl (hturns.call_ne hwaiting hapart hne' hq')
        · rw [hne'] at hq'
          obtain ⟨rfl, rfl, -, -⟩ := hown hq'
          rw [hothers q hne] at hq
          exact absurd rfl (hturns.call_ne hwaiting hapart hne hq)
        · rw [hothers q hne] at hq
          rw [hothers q' hne'] at hq'
          exact hapart q q' job' job'' id' rest' rest'' call' hq hq'

/-- The rules of the peer selected the channel, where the publisher tested them. -/
def Tested (engine : Engine Regex) (p : Publisher) (job : Job) (id : ℕ)
    (past : List (State Regex × Act × State Regex)) : Prop :=
  ∃ u v rest, (u, Act.visit p, v) ∈ past ∧ u.places p = .visits job (id :: rest) ∧
    (u.subscriptions id).selects engine job.frame.channel = true

theorem Tested.concat {job : Job} {id : ℕ} {past : List (State Regex × Act × State Regex)}
    (h : Tested engine p job id past) (m : State Regex × Act × State Regex) :
    Tested engine p job id (past ++ [m]) := by
  obtain ⟨u, v, rest, hmem, hplace⟩ := h
  exact ⟨u, v, rest, List.mem_append_left _ hmem, hplace⟩

/-- A publisher is in `put_message` for a peer. -/
def Place.Asks (job : Job) (id : ℕ) : Place → Prop
  | .puts found peer _ | .waits found peer _ _ => found = job ∧ peer = id
  | _ => False

/-- What holds of a state and of all that led to it. -/
structure Kept (engine : Engine Regex) (s : State Regex)
    (past : List (State Regex × Act × State Regex)) : Prop where
  listed : Serve.Listed s.relay
  waiting : Waiting s
  apart : Apart s
  fair : ∀ p id, Fair (s.places p) (published p past) ((admitted p id past).map Prod.fst) id
  numbers : ∀ p, (published p past).map Job.number = List.range (s.begun p)
  encoded : ∀ p, ∀ job ∈ published p past, Tcpq.publish job.frame = .ok job.encoded
  frames : ∀ p id, ∀ entry ∈ admitted p id past, entry.2 = entry.1.encoded
  asks : ∀ p job id, (s.places p).Asks job id → Tested engine p job id past
  tested : ∀ p id, ∀ entry ∈ admitted p id past, Tested engine p entry.1 id past

theorem kept_start : Kept engine start [] where
  listed := Serve.listed_new
  waiting _ _ _ _ _ h := nomatch h
  apart _ _ _ _ _ _ _ _ h := nomatch h
  fair _ _ := ⟨List.Sublist.refl _, (fun _ h => nomatch h), List.nodup_nil⟩
  numbers _ := rfl
  encoded _ _ h := nomatch h
  frames _ _ _ h := nomatch h
  asks _ _ _ h := h.elim
  tested _ _ _ h := nomatch h

/-- The list of peers is one of the relay's own. -/
theorem listed_step (h : Serve.Listed s.relay) (hstep : step engine s act = some t) :
    Serve.Listed t.relay := by
  cases act with
  | arrive id bytes =>
    simp only [step] at hstep
    split_ifs at hstep
    cases hstep
    exact h
  | request id =>
    simp only [step] at hstep
    split_ifs at hstep
    split at hstep <;> cases hstep
    · rename_i request used hdecode
      cases request with
      | publish frame =>
        simp only [State.request]
        split <;> exact h
      | subscribe | unsubscribe => exact h
    · exact h
  | publish | snapshot | visit =>
    simp only [step] at hstep
    split at hstep <;> cases hstep <;> exact h
  | put | wake =>
    simp only [step] at hstep
    split at hstep
    · obtain ⟨relay, hrelay, rfl⟩ := Option.map_eq_some_iff.1 hstep
      exact h.step hrelay
    · cases hstep
  | relay act =>
    simp only [step] at hstep
    split_ifs at hstep
    obtain ⟨relay, hrelay, rfl⟩ := Option.map_eq_some_iff.1 hstep
    exact h.step hrelay

variable {past : List (State Regex × Act × State Regex)}

theorem length_publishes_le (p : Publisher) (s : State Regex) (act : Act) (t : State Regex) :
    (publishes p s act t).length ≤ 1 := by
  unfold publishes
  split_ifs
  · cases (t.places p).job <;> simp
  · simp

/-- What a step is for one publisher: none of its own, one at no outbox, or a turn at one. -/
theorem Kept.cases (h : Kept engine s past) (hstep : step engine s act = some t) (p : Publisher) :
    (t.places p = s.places p ∧ publishes p s act t = [] ∧ ∀ id, admits p id s act t = []) ∨
    (Moves engine s p act (s.places p) (t.places p) ∧
      publishes p s act t = (if s.places p = .idle then (t.places p).job.toList else []) ∧
      ∀ id, admits p id s act t = []) ∨
    ∃ job id rest call, Turns s t p job id rest call ∧ publishes p s act t = [] ∧
      ∀ i, admits p i s act t =
        (entered .message (outboxOf s.relay i) (outboxOf t.relay i)).map fun frame => (job, frame) := by
  by_cases hp : act.publisher = some p
  · obtain ⟨-, ⟨hrelay, hmoves⟩ | ⟨job, id, rest, call, hturns⟩⟩ := own_step h.waiting hp hstep
    · refine .inr (.inl ⟨hmoves, by simp [publishes, hp], fun id => ?_⟩)
      have hentered := (Quiet.refl (outboxOf s.relay id)).2 .message
      simp [admits, hrelay, hentered]
    · obtain ⟨hjob, -, hidle⟩ := hturns.place
      refine .inr (.inr ⟨job, id, rest, call, hturns, by simp [publishes, hidle], fun i => ?_⟩)
      simp [admits, hp, hjob]
  · refine .inl ⟨?_, by simp [publishes, hp], fun id => by simp [admits, hp]⟩
    cases hother : act.publisher with
    | none => exact congrFun (other_step h.listed hother hstep).1 p
    | some other =>
      have hne : p ≠ other := fun heq => hp (heq ▸ hother)
      exact (own_step h.waiting hother hstep).1 p hne

/-- The order of a publisher at a peer is kept. -/
theorem Kept.fair_step (h : Kept engine s past) (hstep : step engine s act = some t) (p : Publisher)
    (id : ℕ) : Fair (t.places p) (published p (past ++ [(s, act, t)]))
      ((admitted p id (past ++ [(s, act, t)])).map Prod.fst) id := by
  have hfair := h.fair p id
  rw [published_concat, admitted_concat, List.map_append]
  rcases h.cases hstep p with ⟨hplace, hpublishes, hadmits⟩ | ⟨hmoves, hpublishes, hadmits⟩ |
    ⟨job, peer, rest, call, hturns, hpublishes, hadmits⟩
  · rw [hplace, hpublishes, hadmits, List.append_nil, List.map_nil, List.append_nil]
    exact hfair
  · rw [hpublishes, hadmits, List.map_nil, List.append_nil]
    exact hfair.moves h.listed.nodup hmoves
  · rw [hpublishes, hadmits, List.append_nil]
    obtain ⟨hjob, hrest, hidle⟩ := hturns.place
    have hnodup := hfair.nodup
    rw [hrest] at hnodup
    have hahead : ∀ {i}, i ∈ peer :: rest → (s.places p).ahead i := fun {i} hi => by
      cases hplace : s.places p with
      | idle => exact absurd hplace hidle
      | dispatches => trivial
      | visits | puts | waits =>
        show i ∈ Place.rest _
        rwa [← hplace, hrest]
    -- Nothing is let in, at this peer.
    have hnone : entered .message (outboxOf s.relay id) (outboxOf t.relay id) = [] →
        Fair (t.places p) (published p past) ((admitted p id past).map Prod.fst ++
          (((entered .message (outboxOf s.relay id) (outboxOf t.relay id)).map
            fun frame => (job, frame)).map Prod.fst)) id := fun hentered => by
      rw [hentered, List.map_nil, List.map_nil, List.append_nil]
      rcases hturns.cases with ⟨hnext, -⟩ | ⟨hnext, -⟩ <;> rw [hnext]
      · exact hfair.mono hjob.symm (fun hi => hahead (List.mem_cons_of_mem _ hi))
          (List.nodup_cons.1 hnodup).2
      · exact hfair.mono hjob.symm (fun hi => hahead hi) hnodup
    rcases eq_or_ne id peer with rfl | hne
    · rcases hturns.cases with ⟨hnext, hentered | hentered⟩ | ⟨-, -, hentered⟩
      · exact hnone hentered
      · rw [hentered, hnext]
        exact hfair.turn hjob hrest
      · exact hnone hentered
    · apply hnone
      rw [hturns.others id hne]
      exact (Quiet.refl _).2 .message

/-- The publish that a step begins has the number of it, and the bytes that are written for it. -/
theorem Kept.publishes_step (h : Kept engine s past) (hstep : step engine s act = some t)
    (p : Publisher) : ∀ job ∈ publishes p s act t, job.number = s.begun p ∧
      Tcpq.publish job.frame = .ok job.encoded := by
  intro job hjob
  rcases h.cases hstep p with ⟨-, hpublishes, -⟩ | ⟨hmoves, hpublishes, -⟩ |
    ⟨_, _, _, _, -, hpublishes, -⟩
  · rw [hpublishes] at hjob
    cases hjob
  · rw [hpublishes] at hjob
    split_ifs at hjob with hidle
    · rw [hidle] at hmoves
      generalize t.places p = next at hmoves hjob
      cases hmoves with
      | stays => cases hjob
      | begins number encoded =>
        cases List.mem_singleton.1 hjob
        exact ⟨number, encoded⟩
    · cases hjob
  · rw [hpublishes] at hjob
    cases hjob

/-- What a step lets in is of a publish whose peer was tested, as it was written for it. -/
theorem Kept.admits_step (h : Kept engine s past) (hstep : step engine s act = some t)
    (p : Publisher) (id : ℕ) : ∀ entry ∈ admits p id s act t, entry.2 = entry.1.encoded ∧
      Tested engine p entry.1 id past := by
  intro entry hentry
  rcases h.cases hstep p with ⟨-, -, hadmits⟩ | ⟨-, -, hadmits⟩ |
    ⟨job, peer, rest, call, hturns, -, hadmits⟩
  · rw [hadmits] at hentry
    cases hentry
  · rw [hadmits] at hentry
    cases hentry
  · rw [hadmits] at hentry
    obtain ⟨frame, hframe, rfl⟩ := List.mem_map.1 hentry
    rcases eq_or_ne id peer with rfl | hne
    · have hasks : (s.places p).Asks job id := by
        rcases hturns.before with ⟨hplace, -⟩ | hplace <;> rw [hplace] <;> exact ⟨rfl, rfl⟩
      refine ⟨?_, h.asks p job id hasks⟩
      rcases hturns.cases with ⟨-, hentered | hentered⟩ | ⟨-, -, hentered⟩ <;> rw [hentered] at hframe
      · cases hframe
      · exact List.mem_singleton.1 hframe
      · cases hframe
    · rw [hturns.others id hne, (Quiet.refl _).2 .message] at hframe
      cases hframe

/-- A publisher calls `put_message` for a peer behind its test. -/
theorem Kept.asks_step (h : Kept engine s past) (hstep : step engine s act = some t) (p : Publisher)
    (job : Job) (id : ℕ) (hasks : (t.places p).Asks job id) :
    Tested engine p job id (past ++ [(s, act, t)]) := by
  rcases h.cases hstep p with ⟨hplace, -, -⟩ | ⟨hmoves, -, -⟩ | ⟨found, peer, rest, call, hturns, -, -⟩
  · rw [hplace] at hasks
    exact (h.asks p job id hasks).concat _
  · generalize hplace : s.places p = place at hmoves
    generalize t.places p = next at hmoves hasks
    cases hmoves with
    | stays | begins | snapshot | passes | ends => exact hasks.elim
    | selects visit selects =>
      obtain ⟨rfl, rfl⟩ := hasks
      exact ⟨s, t, _, by rw [visit]; simp, hplace, selects⟩
  · have hbefore : (s.places p).Asks found peer := by
      rcases hturns.before with ⟨hplace, -⟩ | hplace <;> rw [hplace] <;> exact ⟨rfl, rfl⟩
    rcases hturns.cases with ⟨hnext, -⟩ | ⟨hnext, -⟩ <;> rw [hnext] at hasks
    · exact hasks.elim
    · obtain ⟨rfl, rfl⟩ := hasks
      exact (h.asks p found peer hbefore).concat _

/-- **No step of any thread takes a publisher out of its order at any peer.** -/
theorem Kept.step (h : Kept engine s past) (hstep : Dispatch.step engine s act = some t) :
    Kept engine t (past ++ [(s, act, t)]) := by
  obtain ⟨hwaiting, hapart⟩ := waits_step h.listed h.waiting h.apart hstep
  refine ⟨listed_step h.listed hstep, hwaiting, hapart, h.fair_step hstep, fun p => ?_,
    fun p job hjob => ?_, fun p id entry hentry => ?_, h.asks_step hstep, fun p id entry hentry => ?_⟩
  · have hbegun := begun_step hstep p
    have hpublishes := h.publishes_step hstep p
    rw [published_concat, List.map_append, h.numbers]
    have hone := length_publishes_le p s act t
    generalize publishes p s act t = jobs at hbegun hpublishes hone
    rcases jobs with _ | ⟨job, _ | ⟨job', rest⟩⟩
    · simp [hbegun]
    · rw [hbegun, List.length_singleton, List.range_succ, List.map_singleton,
        (hpublishes job List.mem_cons_self).1]
    · simp only [List.length_cons] at hone
      omega
  · rw [published_concat] at hjob
    rcases List.mem_append.1 hjob with hjob | hjob
    · exact h.encoded p job hjob
    · exact (h.publishes_step hstep p job hjob).2
  · rw [admitted_concat] at hentry
    rcases List.mem_append.1 hentry with hentry | hentry
    · exact h.frames p id entry hentry
    · exact (h.admits_step hstep p id entry hentry).1
  · rw [admitted_concat] at hentry
    rcases List.mem_append.1 hentry with hentry | hentry
    · exact (h.tested p id entry hentry).concat _
    · exact (h.admits_step hstep p id entry hentry).2.concat _

/-! ### What a peer sent -/

/-- The bytes a step brings from a peer. -/
def arrives (id : ℕ) : Act → Bytes
  | .arrive peer bytes => if peer = id then bytes else []
  | _ => []

/-- All that came from a peer. -/
def arrived (id : ℕ) (past : List (State Regex × Act × State Regex)) : Bytes :=
  past.flatMap fun (_, act, _) => arrives id act

@[simp] theorem arrived_concat (id : ℕ) (past : List (State Regex × Act × State Regex))
    (s t : State Regex) (act : Act) :
    arrived id (past ++ [(s, act, t)]) = arrived id past ++ arrives id act := by
  simp [arrived]

/-- A piece of a stream: the frame of a publish, or one of no publish. -/
def Piece (piece : Bytes × Option Job) : Prop :=
  match piece.2 with
  | some job => piece.1 = job.encoded
  | none => ∀ frame, Tcpq.publish frame ≠ .ok piece.1

/-- The publishes of a peer are those in what it sent, one behind another. -/
def Sent (id : ℕ) (s : State Regex) (past : List (State Regex × Act × State Regex)) : Prop :=
  ∃ pieces : List (Bytes × Option Job),
    arrived id past = pieces.flatMap Prod.fst ++ s.incoming id ∧
    pieces.filterMap Prod.snd = published (.peer id) past ∧ ∀ piece ∈ pieces, Piece piece

/-- What a relay takes off the front of a stream is a publish exactly where it reads one. -/
theorem piece_of_decodeRequest {data : Bytes} {used : ℕ}
    (h : Tcpq.decodeRequest data = .ok (.skip used) ∨ ∃ request,
      Tcpq.decodeRequest data = .ok (.item request used) ∧ ∀ frame, request ≠ .publish frame) :
    Piece (data.take used, none) := by
  intro frame hframe
  have hread := (Tcpq.readers_of_publish hframe (data.drop used)).2
  rw [List.take_append_drop] at hread
  rcases h with h | ⟨request, h, hrequest⟩
  · cases h.symm.trans hread
  · have hitem := Except.ok.inj (h.symm.trans hread)
    injection hitem with hitem
    exact hrequest frame hitem

/-- The bytes a reader takes are the next piece. -/
theorem Sent.consume {id used : ℕ} (job : Option Job) (h : Sent id s past)
    (hincoming : t.incoming id = (s.incoming id).drop used)
    (hpiece : Piece ((s.incoming id).take used, job))
    (hpublishes : publishes (.peer id) s (.request id) t = job.toList) :
    Sent id t (past ++ [(s, .request id, t)]) := by
  obtain ⟨pieces, harrived, hpublished, hpieces⟩ := h
  refine ⟨pieces ++ [((s.incoming id).take used, job)], ?_, ?_, fun piece hmem => ?_⟩
  · rw [arrived_concat, harrived, hincoming]
    simp [arrives]
  · rw [published_concat, hpublishes, List.filterMap_append, hpublished]
    cases job <;> rfl
  · rcases List.mem_append.1 hmem with hmem | hmem
    · exact hpieces piece hmem
    · rw [List.mem_singleton.1 hmem]
      exact hpiece

/-- A step that reads nothing of the peer. -/
theorem Sent.same {id : ℕ} (h : Sent id s past) (hincoming : t.incoming id = s.incoming id)
    (harrives : arrives id act = []) (hpublishes : publishes (.peer id) s act t = []) :
    Sent id t (past ++ [(s, act, t)]) := by
  obtain ⟨pieces, harrived, hpublished, hpieces⟩ := h
  exact ⟨pieces, by rw [arrived_concat, harrives, harrived, hincoming, List.append_nil],
    by rw [published_concat, hpublishes, hpublished, List.append_nil], hpieces⟩

theorem Sent.step {id : ℕ} (h : Sent id s past) (hstep : Dispatch.step engine s act = some t) :
    Sent id t (past ++ [(s, act, t)]) := by
  have hbegun := begun_step hstep (.peer id)
  have hnone : t.begun (.peer id) = s.begun (.peer id) → publishes (.peer id) s act t = [] :=
    fun hsame => List.eq_nil_of_length_eq_zero (by omega)
  cases act with
  | arrive peer bytes =>
    simp only [Dispatch.step] at hstep
    split_ifs at hstep
    cases hstep
    rcases eq_or_ne peer id with rfl | hne
    · obtain ⟨pieces, harrived, hpublished, hpieces⟩ := h
      refine ⟨pieces, ?_, ?_, hpieces⟩
      · rw [arrived_concat, harrived]
        simp [arrives]
      · rw [published_concat, hnone rfl, hpublished, List.append_nil]
    · exact h.same (Function.update_of_ne hne.symm _ _) (if_neg hne) (hnone rfl)
  | request peer =>
    simp only [Dispatch.step] at hstep
    split_ifs at hstep with hreading
    rcases eq_or_ne peer id with rfl | hne
    · split at hstep <;> cases hstep
      · rename_i request used hdecode
        cases request with
        | publish frame =>
          obtain ⟨hused, hencoded⟩ := Tcpq.publish_of_decodeRequest hdecode
          have hbegins : State.request engine (s.consume peer used) peer (.publish frame) =
              (s.consume peer used).begins (.peer peer) frame ((s.incoming peer).take used) := by
            simp only [State.request, hencoded]
          rw [hbegins]
          refine h.consume (some ⟨s.begun (.peer peer), frame, (s.incoming peer).take used⟩)
            (Function.update_self ..) rfl ?_
          rw [publishes, if_pos ⟨rfl, hreading.2⟩, State.begins, places_goes]
          rfl
        | subscribe pattern =>
          exact h.consume none (Function.update_self ..)
            (piece_of_decodeRequest (.inr ⟨_, hdecode, by simp⟩)) (hnone rfl)
        | unsubscribe pattern =>
          exact h.consume none (Function.update_self ..)
            (piece_of_decodeRequest (.inr ⟨_, hdecode, by simp⟩)) (hnone rfl)
      · rename_i used hdecode
        exact h.consume none (Function.update_self ..)
          (piece_of_decodeRequest (.inl hdecode)) (hnone rfl)
    · have hother : publishes (.peer id) s (.request peer) t = [] := by
        rw [publishes, if_neg]
        rintro ⟨hp, -⟩
        cases hp
        exact hne rfl
      have hincoming : ∀ used, (s.consume peer used).incoming id = s.incoming id := fun used =>
        Function.update_of_ne hne.symm _ _
      split at hstep <;> cases hstep
      · rename_i request used hdecode
        refine h.same ?_ rfl hother
        cases request with
        | publish frame =>
          simp only [State.request]
          split
          · exact hincoming used
          · exact hincoming used
        | subscribe | unsubscribe => exact hincoming used
      · exact h.same (hincoming _) rfl hother
  | publish name frame =>
    simp only [Dispatch.step] at hstep
    split at hstep <;> cases hstep
    · refine h.same rfl rfl (if_neg ?_)
      rintro ⟨hp, -⟩
      cases hp
    · exact h.same rfl rfl (hnone rfl)
  | snapshot | visit =>
    simp only [Dispatch.step] at hstep
    split at hstep <;> cases hstep <;> exact h.same rfl rfl (hnone rfl)
  | put | wake =>
    simp only [Dispatch.step] at hstep
    split at hstep
    · obtain ⟨relay, -, rfl⟩ := Option.map_eq_some_iff.1 hstep
      exact h.same rfl rfl (hnone rfl)
    · cases hstep
  | relay act =>
    simp only [Dispatch.step] at hstep
    split_ifs at hstep
    obtain ⟨relay, -, rfl⟩ := Option.map_eq_some_iff.1 hstep
    exact h.same rfl rfl (hnone rfl)

/-! ### Every run -/

/-- What is let into the messages of a peer is let in by a publisher, of a publish it has in hand. -/
def Owned (past : List (State Regex × Act × State Regex)) : Prop :=
  ∀ u act v id, (u, act, v) ∈ past →
    ∀ frame ∈ entered .message (outboxOf u.relay id) (outboxOf v.relay id),
      ∃ p job, (job, frame) ∈ admits p id u act v

theorem Owned.step (h : Owned past) (hkept : Kept engine s past)
    (hstep : Dispatch.step engine s act = some t) : Owned (past ++ [(s, act, t)]) := by
  intro u found v id hmem frame hframe
  rcases List.mem_append.1 hmem with hmem | hmem
  · exact h u found v id hmem frame hframe
  cases List.mem_singleton.1 hmem
  cases hp : act.publisher with
  | none =>
    rw [(other_step hkept.listed hp hstep).2.2 id |>.2 .message] at hframe
    cases hframe
  | some p =>
    obtain ⟨-, ⟨hrelay, -⟩ | ⟨job, peer, rest, call, hturns⟩⟩ := own_step hkept.waiting hp hstep
    · rw [hrelay, (Quiet.refl _).2 .message] at hframe
      cases hframe
    · exact ⟨p, job, by simpa [admits, hp, hturns.place.1] using hframe⟩

/-- **A relay keeps the order of each publisher, and copies each message at most once**, in any
interleaving of its publishers with peers that come, leave and change their rules, and with outboxes
that refuse.  What a publisher let into the messages of a peer is a part of what it published, in its
order, where each publish is numbered; each was let in with the bytes that were published, behind a
test of the peer's rules that selected its channel.  The publishes of a peer are those in the bytes
that came from it, one behind another, and each is the frame that was sent. -/
theorem keeps_order {acts : List Act} {s : State Regex}
    (hrun : Machine.run (step engine) start acts = some s) :
    let past := Machine.transitions (step engine) start acts
    (∀ p id, ((admitted p id past).map Prod.fst).Sublist (published p past) ∧
      ∀ entry ∈ admitted p id past, entry.2 = entry.1.encoded ∧ Tested engine p entry.1 id past) ∧
    (∀ p, (published p past).map Job.number = List.range (published p past).length ∧
      ∀ job ∈ published p past, Tcpq.publish job.frame = .ok job.encoded) ∧
    (∀ id, Sent id s past) ∧ Owned past := by
  intro past
  have hstart : Kept engine start [] ∧ (∀ id, Sent id (start : State Regex) []) ∧
      Owned ([] : List (State Regex × Act × State Regex)) :=
    ⟨kept_start, fun _ => ⟨[], rfl, rfl, (fun _ h => nomatch h)⟩, fun _ _ _ _ h => nomatch h⟩
  have hhistory := Machine.run_history
    (P := fun s past => Kept engine s past ∧ (∀ id, Sent id s past) ∧ Owned past)
    (fun _ _ _ _ h hstep => ⟨h.1.step hstep, fun id => (h.2.1 id).step hstep, h.2.2.step h.1 hstep⟩)
    hstart hrun
  rw [List.nil_append] at hhistory
  obtain ⟨hkept, hsent, howned⟩ := hhistory
  refine ⟨fun p id => ⟨(hkept.fair p id).part, fun entry hentry =>
    ⟨hkept.frames p id entry hentry, hkept.tested p id entry hentry⟩⟩, fun p => ⟨?_, hkept.encoded p⟩,
    hsent, howned⟩
  have hnumbers := hkept.numbers p
  have hlength := congrArg List.length hnumbers
  rw [List.length_map, List.length_range] at hlength
  rw [hnumbers, hlength]

/-- A peer that takes a name, and a thread that publishes on it twice, of which the peer is told once:
it takes its rule back before the other. -/
theorem keeps_order_of_two :
    let engine : Engine String := ⟨.ok, fun compiled text => some (compiled = "^(?:" ++ text ++ ")$")⟩
    let publish : List Act := [.publish 0 ⟨"a", [7]⟩, .snapshot (.thread 0), .visit (.thread 0)]
    let acts : List Act := [[.relay .poll, .relay .accept, .relay .spawnWriter, .relay .spawnReader,
      .relay .push, .arrive 0 (Tcpq.subscribe "a"), .request 0], publish,
      [.put (.thread 0) 0 false, .visit (.thread 0), .arrive 0 (Tcpq.unsubscribe "a"), .request 0],
      publish, [.visit (.thread 0)]].flatten
    let past := Machine.transitions (step engine) start acts
    (published (.thread 0) past).length = 2 ∧
      ((admitted (.thread 0) 0 past).map fun entry => entry.1.number) = [0] ∧
      ((admitted (.thread 0) 0 past).map Prod.fst).Sublist (published (.thread 0) past) := by
  intro engine publish acts past
  have hsome : (Machine.run (step engine) start acts).isSome = true := by decide +kernel
  obtain ⟨s, hrun⟩ := Option.isSome_iff_exists.1 hsome
  exact ⟨by decide +kernel, by decide +kernel, ((keeps_order hrun).1 (.thread 0) 0).1⟩

end Dispatch

end LcmBus
