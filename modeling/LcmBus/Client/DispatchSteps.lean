import LcmBus.Client.Dispatch

/-!
# The steps of a served relay, for its fan-out

* `Quiet`: what the other threads of the relay leave of an outbox;
* `Listed`: a peer is on the list of a relay once;
* `TurnOf`: what a turn of `put_message` does to an outbox;
* `own_step` and `other_step`: what a step of a publisher comes to, by the place it was in, and that
  the others do nothing to one.
-/

namespace LcmBus

/-! ### The other threads of a relay -/

namespace Outbox

/-- No call ends or begins, and no frame is let in. -/
def Quiet (s t : State) : Prop := t.calls = s.calls ∧ ∀ lane, entered lane s t = []

theorem Quiet.refl (s : State) : Quiet s s := ⟨rfl, fun _ => entered_of_taken_eq rfl⟩

theorem Quiet.of_step {s t : State} {act : Act} (hact : act.ofCaller = false)
    (hstep : step s act = some t) : Quiet s t := entered_of_not_ofCaller hact hstep

end Outbox

open Outbox

namespace Relay.Link

/-- The writer of a connection lets no frame in. -/
theorem quiet_step {running : Bool} {l t : Link} {act : Act} (hact : act.ofWriter = true)
    (hstep : step running l act = some t) : Quiet l.outbox t.outbox := by
  cases act with
  | call => cases hact
  | look | check =>
    simp only [step] at hstep
    split at hstep <;> cases hstep
    exact Quiet.refl _
  | take | finish | exitShut | exitAbandon =>
    simp only [step] at hstep
    split at hstep
    · obtain ⟨outbox, houtbox, rfl⟩ := Option.map_eq_some_iff.1 hstep
      exact Quiet.of_step rfl houtbox
    · cases hstep
  | write wrote stalled =>
    obtain ⟨_, -, _, -, _, rfl⟩ := write_eq_some hstep
    exact Quiet.refl _
  | panic =>
    simp only [step] at hstep
    split_ifs at hstep
    cases hstep
    exact Quiet.refl _

theorem quiet_shut (l : Link) : Quiet l.outbox l.shut.outbox := by
  have hstep : Outbox.step l.outbox .shut = some l.shut.outbox := rfl
  exact Quiet.of_step rfl hstep

end Relay.Link

namespace Serve

/-- What holds of the list in any relay: a peer is on it once, and one that is started is not on it
yet. -/
structure Listed (s : State) : Prop where
  nodup : s.peers.Nodup
  lt_nextId : ∀ id ∈ s.peers, id < s.nextId
  fresh : ∀ id p, s.known id = some p → id < s.nextId
  starting : ∀ id, s.accept.starting = some id → id ∉ s.peers ∧ id < s.nextId

theorem listed_new : Listed .new := by
  constructor <;> simp [State.new, Accept.starting]

variable {s t u : State} {id : ℕ}

/-- A change of one peer is none of the list. -/
theorem listed_modify {change : Peer → Option Peer} (hmodify : u.modify id change = some t)
    (h : Listed u) : Listed t := by
  obtain ⟨p, q, hp, -, rfl⟩ := State.modify_eq_some.1 hmodify
  refine ⟨h.nodup, h.lt_nextId, fun other r hr => ?_, h.starting⟩
  rcases eq_or_ne other id with rfl | hne
  · exact h.fresh other p hp
  · exact h.fresh other r ((Function.update_of_ne hne _ _).symm.trans hr)

/-- Fewer peers may be listed, and none be started. -/
theorem Listed.mono (h : Listed s) (hpeers : u.peers.Sublist s.peers) (hnext : u.nextId = s.nextId)
    (hknown : u.known = s.known) (hstarting : u.accept.starting = s.accept.starting ∨
      u.accept.starting = none) : Listed u := by
  refine ⟨h.nodup.sublist hpeers, fun i hi => ?_, fun i p hp => ?_, fun i hi => ?_⟩
  · rw [hnext]
    exact h.lt_nextId i (hpeers.subset hi)
  · rw [hnext]
    exact h.fresh i p (hknown ▸ hp)
  · rcases hstarting with hstarting | hstarting
    · obtain ⟨hmem, hlt⟩ := h.starting i (hstarting ▸ hi)
      exact ⟨fun hmem' => hmem (hpeers.subset hmem'), hnext ▸ hlt⟩
    · rw [hstarting] at hi
      cases hi

theorem Listed.step (h : Listed s) {act : Act} (hstep : step s act = some t) : Listed t := by
  have hsame : List.Sublist s.peers s.peers := List.Sublist.refl _
  cases act with
  | poll =>
    simp only [Serve.step] at hstep
    split at hstep <;> cases hstep
    exact h.mono hsame rfl rfl (.inr (by dsimp only; split_ifs <;> rfl))
  | nothing | listenerGone | fail =>
    simp only [Serve.step] at hstep
    split at hstep <;> cases hstep <;> exact h.mono hsame rfl rfl (.inr rfl)
  | accept =>
    simp only [Serve.step] at hstep
    split at hstep <;> cases hstep
    refine ⟨h.nodup, fun i hi => (h.lt_nextId i hi).trans (Nat.lt_succ_self _), fun i p hp => ?_,
      fun i hi => ?_⟩
    · rcases eq_or_ne i s.nextId with rfl | hne
      · exact Nat.lt_succ_self _
      · exact (h.fresh i p ((Function.update_of_ne hne _ _).symm.trans hp)).trans (Nat.lt_succ_self _)
    · cases hi
      exact ⟨fun hmem => lt_irrefl _ (h.lt_nextId _ hmem), Nat.lt_succ_self _⟩
  | spawnWriter | spawnReader =>
    simp only [Serve.step] at hstep
    split at hstep
    · rename_i i haccept
      exact listed_modify hstep (h.mono hsame rfl rfl (.inl (by rw [haccept]; rfl)))
    · cases hstep
  | push =>
    simp only [Serve.step] at hstep
    split at hstep
    · rename_i i haccept
      obtain ⟨hmem, hlt⟩ := h.starting i (by rw [haccept]; rfl)
      refine listed_modify hstep ⟨?_, fun j hj => ?_, h.fresh, by rintro _ ⟨⟩⟩
      · exact List.nodup_append.2 ⟨h.nodup, List.nodup_singleton i, fun j hj k hk heq =>
          hmem (List.mem_singleton.1 hk ▸ heq ▸ hj)⟩
      · rcases List.mem_append.1 hj with hj | hj
        · exact h.lt_nextId j hj
        · exact List.mem_singleton.1 hj ▸ hlt
    · cases hstep
  | finish =>
    simp only [Serve.step] at hstep
    split at hstep
    · exact listed_modify hstep (h.mono hsame rfl rfl (.inr rfl))
    · cases hstep
  | peer | readerEnds | readerPanics | dropShut | dropHangUp => exact listed_modify hstep h
  | drop i =>
    simp only [Serve.step] at hstep
    split_ifs at hstep
    · exact listed_modify hstep (h.mono List.erase_sublist rfl rfl (.inl rfl))
    · exact listed_modify hstep h
  | stop =>
    cases hstep
    exact h.mono hsame rfl rfl (.inl rfl)
  | takePeers =>
    simp only [Serve.step] at hstep
    split_ifs at hstep
    cases hstep
    exact h.mono (List.nil_sublist _) rfl rfl (.inl rfl)
  | shutPeer i | shutHangUp i =>
    simp only [Serve.step] at hstep
    split_ifs at hstep
    exact listed_modify hstep (h.mono hsame rfl rfl (.inl rfl))

open Dispatch (outboxOf)

theorem quiet_modify {change : Peer → Option Peer} (hmodify : u.modify id change = some t)
    (hchange : ∀ p q, change p = some q → Quiet p.link.outbox q.link.outbox) (i : ℕ) :
    Quiet (outboxOf u i) (outboxOf t i) := by
  obtain ⟨p, q, hp, hq, rfl⟩ := State.modify_eq_some.1 hmodify
  rcases eq_or_ne i id with rfl | hne
  · simpa [outboxOf, hp] using hchange p q hq
  · simpa [outboxOf, Function.update_of_ne hne] using Quiet.refl _

theorem quiet_readerStep {start : Reader} {change : Peer → Peer}
    (hchange : ∀ p, Quiet p.link.outbox (change p).link.outbox) (p q : Peer)
    (h : p.readerStep start change = some q) : Quiet p.link.outbox q.link.outbox := by
  obtain ⟨-, rfl⟩ := Peer.readerStep_eq_some.1 h
  exact hchange p

/-- Of all the threads of a relay, only those that call an outbox let a frame in. -/
theorem quiet_step (h : Listed s) {act : Act} (hcall : ∀ id a, act ≠ .peer id (.call a))
    (hstep : step s act = some t) (i : ℕ) : Quiet (outboxOf s i) (outboxOf t i) := by
  have hsame : ∀ {v : State}, v.known = s.known → Quiet (outboxOf s i) (outboxOf v i) := fun hv => by
    rw [outboxOf, outboxOf, hv]
    exact Quiet.refl _
  have hmodify : ∀ {v : State} {id change}, v.modify id change = some t → v.known = s.known →
      (∀ p q, change p = some q → Quiet p.link.outbox q.link.outbox) →
      Quiet (outboxOf s i) (outboxOf t i) := fun {v id change} hmodify hv hchange => by
    have hquiet := quiet_modify hmodify hchange i
    rwa [outboxOf, hv, ← outboxOf] at hquiet
  have hself : ∀ {change : Peer → Peer}, (∀ p, (change p).link = p.link) →
      ∀ p q, some (change p) = some q → Quiet p.link.outbox q.link.outbox := by
    rintro change hchange p q ⟨⟩
    rw [hchange]
    exact Quiet.refl _
  cases act with
  | poll | nothing | listenerGone | fail | stop | takePeers =>
    simp only [Serve.step] at hstep
    first
    | split at hstep <;> cases hstep <;> exact hsame rfl
    | cases hstep; exact hsame rfl
  | accept =>
    simp only [Serve.step] at hstep
    split at hstep <;> cases hstep
    rcases eq_or_ne i s.nextId with rfl | hne
    · have hnone : s.known s.nextId = none := by
        rcases hknown : s.known s.nextId with _ | p
        · rfl
        · exact absurd (h.fresh _ p hknown) (lt_irrefl _)
      simpa [outboxOf, hnone, Peer.new, Relay.Link.new] using Quiet.refl _
    · simpa [outboxOf, Function.update_of_ne hne] using Quiet.refl _
  | spawnWriter | spawnReader | push | finish =>
    simp only [Serve.step] at hstep
    split at hstep
    · exact hmodify hstep rfl (hself fun _ => rfl)
    · cases hstep
  | peer id a =>
    refine hmodify hstep rfl fun p q hq => ?_
    obtain ⟨-, link, hlink, rfl⟩ := Peer.linkStep_eq_some.1 hq
    refine Relay.Link.quiet_step ?_ hlink
    cases a <;> first | rfl | exact absurd rfl (hcall id _)
  | readerEnds id | readerPanics id =>
    exact hmodify hstep rfl (quiet_readerStep fun _ => Quiet.refl _)
  | drop id =>
    simp only [Serve.step] at hstep
    split_ifs at hstep <;> exact hmodify hstep rfl (quiet_readerStep fun _ => Quiet.refl _)
  | dropShut id => exact hmodify hstep rfl (quiet_readerStep fun p => p.link.quiet_shut)
  | dropHangUp id => exact hmodify hstep rfl (quiet_readerStep fun _ => Quiet.refl _)
  | shutPeer id =>
    simp only [Serve.step] at hstep
    split_ifs at hstep
    refine hmodify hstep rfl ?_
    rintro p q ⟨⟩
    exact p.link.quiet_shut
  | shutHangUp id =>
    simp only [Serve.step] at hstep
    split_ifs at hstep
    refine hmodify hstep rfl ?_
    rintro p q ⟨⟩
    exact Quiet.refl _

/-- A call of an outbox is a step of that outbox, and of no other. -/
theorem call_step {a : Outbox.Act} (hstep : step s (.peer id (.call a)) = some t) :
    Outbox.step (outboxOf s id) a = some (outboxOf t id) ∧
      ∀ i ≠ id, outboxOf t i = outboxOf s i := by
  obtain ⟨p, q, hp, hq, rfl⟩ := State.modify_eq_some.1 hstep
  obtain ⟨-, link, hlink, rfl⟩ := Peer.linkStep_eq_some.1 hq
  simp only [Relay.Link.step] at hlink
  split_ifs at hlink
  obtain ⟨outbox, houtbox, rfl⟩ := Option.map_eq_some_iff.1 hlink
  refine ⟨?_, fun i hne => ?_⟩
  · simpa [outboxOf, hp] using houtbox
  · simp [outboxOf, Function.update_of_ne hne]

end Serve

namespace Outbox

/-- A turn of `put_message` at an outbox: the call is through or refused and over, or it waits with
nothing let in. -/
structure TurnOf (call : ℕ) (frame : Bytes) (s t : State) : Prop where
  others : ∀ name ≠ call, t.calls name = s.calls name
  outcome : (t.calls call = none ∧ (entered .message s t = [] ∨ entered .message s t = [frame])) ∨
    ∃ ticket, t.calls call = some (.message ticket frame) ∧ entered .message s t = []

theorem turnOf_turn (s : State) (line : List ℕ) (nextTicket call ticket : ℕ) (frame : Bytes)
    (late : Bool) : TurnOf call frame s
      ({ s with queue := { s.queue with line, nextTicket } }.turn call (.message ticket frame) late) := by
  have hentered := entered_turn { s with queue := { s.queue with line, nextTicket } } call
    (.message ticket frame) late .message
  refine ⟨fun name hne => Function.update_of_ne hne _ _, ?_⟩
  by_cases hwaits : (Call.turn (.message ticket frame) { s.queue with line, nextTicket } late).1 = .waits
  · refine .inr ⟨ticket, (Function.update_self ..).trans (if_pos hwaits), hentered.trans (if_neg ?_)⟩
    exact fun h => nomatch hwaits.symm.trans h.1
  · refine .inl ⟨(Function.update_self ..).trans (if_neg hwaits), ?_⟩
    by_cases hthrough :
        (Call.turn (.message ticket frame) { s.queue with line, nextTicket } late).1 = .through
    · exact .inr (hentered.trans (if_pos ⟨hthrough, rfl⟩))
    · exact .inl (hentered.trans (if_neg fun h => hthrough h.1))

theorem turnOf_putMessage {s t : State} {call : ℕ} {frame : Bytes} {late : Bool}
    (hstep : step s (.putMessage call frame late) = some t) :
    s.calls call = none ∧ TurnOf call frame s t := by
  simp only [step] at hstep
  split_ifs at hstep with hfree
  cases hstep
  exact ⟨hfree, turnOf_turn s _ _ call _ frame late⟩

theorem turnOf_wake {s t : State} {call ticket : ℕ} {frame : Bytes} {late : Bool}
    (hcall : s.calls call = some (.message ticket frame))
    (hstep : step s (.wake call late) = some t) : TurnOf call frame s t := by
  rw [step, hcall] at hstep
  cases hstep
  exact turnOf_turn s s.queue.line s.queue.nextTicket call ticket frame late

end Outbox

namespace Dispatch

variable {Regex : Type} {engine : Engine Regex} {s t : State Regex} {act : Act} {p : Publisher}

/-! ### What a step of a publisher comes to -/

/-- A step of a publisher at no outbox, from a place to a place. -/
inductive Moves (engine : Engine Regex) (s : State Regex) (p : Publisher) (act : Act) : Place → Place → Prop
  | stays : Moves engine s p act .idle .idle
  | begins {job : Job} (number : job.number = s.begun p)
      (encoded : Tcpq.publish job.frame = .ok job.encoded) :
      Moves engine s p act .idle (.dispatches job)
  | snapshot {job : Job} : Moves engine s p act (.dispatches job) (.visits job s.relay.peers)
  | selects {job : Job} {id : ℕ} {rest : List ℕ} (visit : act = .visit p)
      (selects : (s.subscriptions id).selects engine job.frame.channel = true) :
      Moves engine s p act (.visits job (id :: rest)) (.puts job id rest)
  | passes {job : Job} {id : ℕ} {rest : List ℕ} :
      Moves engine s p act (.visits job (id :: rest)) (.visits job rest)
  | ends {job : Job} : Moves engine s p act (.visits job []) .idle

/-- A step of a publisher at the outbox of a peer. -/
structure Turns (s t : State Regex) (p : Publisher) (job : Job) (id : ℕ) (rest : List ℕ)
    (call : ℕ) : Prop where
  before : s.places p = .puts job id rest ∧ (outboxOf s.relay id).calls call = none ∨
    s.places p = .waits job id rest call
  behind : t.places p = if ((outboxOf t.relay id).calls call).isNone then .visits job rest
    else .waits job id rest call
  turn : TurnOf call job.encoded (outboxOf s.relay id) (outboxOf t.relay id)
  others : ∀ i ≠ id, outboxOf t.relay i = outboxOf s.relay i

/-- A publish that waits in an outbox is there under its name. -/
def Waiting (s : State Regex) : Prop :=
  ∀ p job id rest call, s.places p = .waits job id rest call →
    ∃ ticket, (outboxOf s.relay id).calls call = some (.message ticket job.encoded)

theorem places_goes (s : State Regex) (p : Publisher) (place : Place) :
    (s.goes p place).places p = place := Function.update_self ..

theorem places_goes_of_ne (s : State Regex) (place : Place) {other : Publisher} (h : other ≠ p) :
    (s.goes p place).places other = s.places other := Function.update_of_ne h _ _

/-- **What a step of a publisher comes to.** -/
theorem own_step (hwaiting : Waiting s) (hp : act.publisher = some p)
    (hstep : step engine s act = some t) : (∀ other ≠ p, t.places other = s.places other) ∧
      ((t.relay = s.relay ∧ Moves engine s p act (s.places p) (t.places p)) ∨
        ∃ job id rest call, Turns s t p job id rest call) := by
  have hgoes : ∀ {u : State Regex} {place}, u.places = s.places → u.relay = s.relay →
      Moves engine s p act (s.places p) place →
      (∀ other ≠ p, (u.goes p place).places other = s.places other) ∧
        (((u.goes p place).relay = s.relay ∧
          Moves engine s p act (s.places p) ((u.goes p place).places p)) ∨
        ∃ job id rest call, Turns s (u.goes p place) p job id rest call) :=
    fun {u place} hplaces hrelay hmoves => by
      refine ⟨fun other hne => ?_, .inl ⟨hrelay, ?_⟩⟩
      · rw [places_goes_of_ne _ _ hne, hplaces]
      · rwa [places_goes]
  have hstays : ∀ {u : State Regex}, u.places = s.places → u.relay = s.relay →
      s.places p = .idle → (∀ other ≠ p, u.places other = s.places other) ∧
        ((u.relay = s.relay ∧ Moves engine s p act (s.places p) (u.places p)) ∨
        ∃ job id rest call, Turns s u p job id rest call) := fun {u} hplaces hrelay hidle => by
    refine ⟨fun other _ => by rw [hplaces], .inl ⟨hrelay, ?_⟩⟩
    rw [hplaces, hidle]
    exact .stays
  cases act with
  | arrive | relay => cases hp
  | request id =>
    cases hp
    simp only [step] at hstep
    split_ifs at hstep with hreading
    split at hstep <;> cases hstep
    · rename_i request used hdecode
      cases request with
      | publish frame =>
        cases hencoded : Tcpq.publish frame with
        | error e =>
          simp only [State.request, hencoded]
          exact hstays rfl rfl hreading.2
        | ok encoded =>
          simp only [State.request, hencoded, State.begins]
          refine hgoes rfl rfl ?_
          rw [hreading.2]
          exact .begins rfl hencoded
      | subscribe pattern | unsubscribe pattern => exact hstays rfl rfl hreading.2
    · exact hstays rfl rfl hreading.2
  | publish name frame =>
    cases hp
    simp only [step] at hstep
    split at hstep <;> cases hstep
    · rename_i encoded hidle hencoded
      refine hgoes rfl rfl ?_
      rw [hidle]
      exact .begins rfl hencoded
    · rename_i hidle _
      exact hstays rfl rfl hidle
  | snapshot p' =>
    cases hp
    simp only [step] at hstep
    split at hstep <;> cases hstep
    rename_i job hplace
    refine hgoes rfl rfl ?_
    rw [hplace]
    exact .snapshot
  | visit p' =>
    cases hp
    simp only [step] at hstep
    split at hstep <;> cases hstep
    · rename_i job id rest hplace
      refine hgoes rfl rfl ?_
      rw [hplace]
      split_ifs with hselects
      · exact .selects rfl hselects
      · exact .passes
    · rename_i job hplace
      refine hgoes rfl rfl ?_
      rw [hplace]
      exact .ends
  | put p' call late =>
    cases hp
    simp only [step] at hstep
    split at hstep
    · rename_i job id rest hplace
      obtain ⟨relay, hrelay, rfl⟩ := Option.map_eq_some_iff.1 hstep
      obtain ⟨houtbox, hothers⟩ := Serve.call_step hrelay
      obtain ⟨hfree, hturn⟩ := turnOf_putMessage houtbox
      refine ⟨fun other hne => places_goes_of_ne _ _ hne, .inr ⟨job, id, rest, call,
        .inl ⟨hplace, hfree⟩, places_goes _ _ _, hturn, hothers⟩⟩
    · cases hstep
  | wake p' late =>
    cases hp
    simp only [step] at hstep
    split at hstep
    · rename_i job id rest call hplace
      obtain ⟨relay, hrelay, rfl⟩ := Option.map_eq_some_iff.1 hstep
      obtain ⟨houtbox, hothers⟩ := Serve.call_step hrelay
      obtain ⟨ticket, hcall⟩ := hwaiting p _ _ _ _ hplace
      refine ⟨fun other hne => places_goes_of_ne _ _ hne, .inr ⟨job, id, rest, call,
        .inr hplace, places_goes _ _ _, turnOf_wake hcall houtbox, hothers⟩⟩
    · cases hstep

/-- The other threads leave the publishers where they are, and the outboxes as they are. -/
theorem other_step (h : Serve.Listed s.relay) (hp : act.publisher = none)
    (hstep : step engine s act = some t) : t.places = s.places ∧ t.begun = s.begun ∧
      ∀ i, Quiet (outboxOf s.relay i) (outboxOf t.relay i) := by
  cases act with
  | arrive id bytes =>
    simp only [step] at hstep
    split_ifs at hstep
    cases hstep
    exact ⟨rfl, rfl, fun _ => Quiet.refl _⟩
  | relay act =>
    simp only [step] at hstep
    split_ifs at hstep with hallows
    obtain ⟨relay, hrelay, rfl⟩ := Option.map_eq_some_iff.1 hstep
    refine ⟨rfl, rfl, Serve.quiet_step h (fun id a hact => ?_) hrelay⟩
    rw [hact] at hallows
    cases hallows
  | request | publish | snapshot | visit | put | wake => cases hp

/-- Each publish that begins is counted. -/
theorem begun_step (hstep : step engine s act = some t) (p : Publisher) :
    t.begun p = s.begun p + (publishes p s act t).length := by
  have hnone : act.publisher ≠ some p ∨ s.places p ≠ .idle → publishes p s act t = [] := fun h => by
    rw [publishes, if_neg]
    rintro ⟨hp, hidle⟩
    rcases h with h | h
    · exact h hp
    · exact h hidle
  have hsame : publishes p s act t = [] → t.begun = s.begun →
      t.begun p = s.begun p + (publishes p s act t).length := fun h hbegun => by
    rw [h, hbegun, List.length_nil, Nat.add_zero]
  have hbegins : ∀ {u : State Regex} {p' frame encoded}, act.publisher = some p' →
      s.places p' = .idle → t = u.begins p' frame encoded → u.begun = s.begun →
      t.begun p = s.begun p + (publishes p s act t).length := by
    rintro u p' frame encoded hp' hidle rfl hbegun
    rcases eq_or_ne p p' with rfl | hne
    · rw [publishes, if_pos ⟨hp', hidle⟩, State.begins, places_goes, ← hbegun]
      exact Function.update_self ..
    · rw [hnone (.inl fun h => hne (Option.some.inj (h.symm.trans hp'))), List.length_nil,
        Nat.add_zero, ← hbegun]
      exact Function.update_of_ne hne _ _
  cases act with
  | arrive | relay =>
    simp only [step] at hstep
    split_ifs at hstep
    first
    | cases hstep; exact hsame (hnone (.inl (by simp [Act.publisher]))) rfl
    | obtain ⟨relay, -, rfl⟩ := Option.map_eq_some_iff.1 hstep
      exact hsame (hnone (.inl (by simp [Act.publisher]))) rfl
  | request id =>
    simp only [step] at hstep
    split_ifs at hstep with hreading
    have hidle : t.places = s.places → publishes p s (.request id) t = [] := by
      intro hplaces
      by_cases hp : Act.publisher (.request id) = some p
      · cases hp
        rw [publishes, if_pos ⟨rfl, hreading.2⟩, hplaces, hreading.2]
        rfl
      · exact hnone (.inl hp)
    split at hstep <;> cases hstep
    · rename_i request used hdecode
      cases request with
      | publish frame =>
        cases hencoded : Tcpq.publish frame with
        | error e =>
          have hrefused : State.request engine (s.consume id used) id (.publish frame) =
              s.consume id used := by simp only [State.request, hencoded]
          rw [hrefused] at hidle hsame ⊢
          exact hsame (hidle rfl) rfl
        | ok encoded =>
          have hbegun : State.request engine (s.consume id used) id (.publish frame) =
              (s.consume id used).begins (.peer id) frame encoded := by
            simp only [State.request, hencoded]
          exact hbegins rfl hreading.2 hbegun rfl
      | subscribe pattern | unsubscribe pattern => exact hsame (hidle rfl) rfl
    · exact hsame (hidle rfl) rfl
  | publish name frame =>
    simp only [step] at hstep
    split at hstep <;> cases hstep
    · rename_i encoded hidle hencoded
      exact hbegins rfl hidle rfl rfl
    · rename_i hidle _
      refine hsame ?_ rfl
      by_cases hp : Act.publisher (.publish name frame) = some p
      · cases hp
        rw [publishes, if_pos ⟨rfl, hidle⟩, hidle]
        rfl
      · exact hnone (.inl hp)
  | snapshot p' | visit p' =>
    simp only [step] at hstep
    split at hstep <;> cases hstep <;>
    · rename_i hplace
      refine hsame (hnone ?_) rfl
      by_cases hp : p' = p
      · exact .inr (by rw [← hp, hplace]; simp)
      · exact .inl fun h => hp (Option.some.inj h)
  | put p' call late | wake p' late =>
    simp only [step] at hstep
    split at hstep
    · rename_i hplace
      obtain ⟨relay, -, rfl⟩ := Option.map_eq_some_iff.1 hstep
      refine hsame (hnone ?_) rfl
      by_cases hp : p' = p
      · exact .inr (by rw [← hp, hplace]; simp)
      · exact .inl fun h => hp (Option.some.inj h)
    · cases hstep

end Dispatch

end LcmBus
