import LcmBus.System.RelayedStreams

/-!
# Order, from one client to another

What a client hears of another, through a relay and both of their connections.

* `Carried.step`: what holds of a connection, for each step of the system;
* `Carried.published_isPrefix`: what the relay publishes for a client is the first of what that client
  let into its messages;
* `Carried.heard_isPrefix`: what a client found is the first of what the relay let through to it;
* `hears_in_order` and `misses_nothing`: behind every run.
-/

namespace LcmBus.Relayed

open Incremental Outbox Relay
open Dispatch (Kept Publisher Job Tested published admitted outboxOf)

variable {Regex : Type} {engine : Engine Regex}

/-! ### One connection -/

/-- A step is a turn of the reader of a client. -/
def Act.reads (id : ℕ) : Act → Bool
  | .read other _ _ => other = id
  | _ => false

/-- The rules of a client selected a channel at every turn of its reader. -/
def Listens (engine : Engine Regex) (id : ℕ) (past : Past Regex) (channel : String) : Prop :=
  ∀ entry ∈ past, entry.2.1.reads id = true →
    (entry.1.clients id).subscriptions.selects engine channel = true

theorem Listens.before {id : ℕ} {past : Past Regex} {m : State Regex × Act × State Regex}
    {channel : String} (h : Listens engine id (past ++ [m]) channel) : Listens engine id past channel :=
  fun entry hentry => h entry (List.mem_append_left _ hentry)

/-- What holds of one connection, and of all that led to it. -/
structure Carried (engine : Engine Regex) (opening : Subscriptions Regex) (id : ℕ) (s : State Regex)
    (past : Past Regex) : Prop where
  relayEnd : RelayEnd id s.bus (bus past)
  clientEnd : ClientEnd opening (s.clients id) (asked id past) (offered id past) (controls id past)
  taken : Taken engine id s.bus (bus past)
  up_le : (s.clients id).up ≤ (s.clients id).sent.length
  arrived : Dispatch.arrived id (bus past) = (s.clients id).sent.take (s.clients id).up
  hears : Hears (Listens engine id past) (s.wire id) (s.clients id).down (s.clients id).reader

theorem carried_start (receives : ℕ → Bool) {opening : ℕ → Subscriptions Regex} (id : ℕ)
    (h : ∀ text ∈ (opening id).forARelay, Fits32 text) :
    Carried engine (opening id) id (start receives opening) [] where
  relayEnd := relayEnd_start id
  clientEnd := clientEnd_new (receives id) h
  taken := taken_start id
  up_le := Nat.zero_le _
  arrived := rfl
  hears := hears_start _

/-- A relay sends more, or nothing. -/
theorem wire_step {s t : State Regex} {act : Act} {past : Past Regex}
    (hkept : Kept engine s.bus (bus past)) (hstep : step engine s act = some t) (id : ℕ) :
    s.wire id <+: t.wire id := by
  unfold State.wire
  rcases bus_step hstep with ⟨a, -, ha⟩ | ⟨-, hbus⟩
  · rcases relay_step hkept.waiting ha with hrelay | ⟨b, hrelay, -⟩
    · rw [hrelay]
    · rcases linkOf_step hkept.listed hrelay id with hlink | ⟨m, hlink⟩
      · rw [hlink]
      · exact Link.wire_move hlink
  · rw [hbus]

namespace Carried

variable {opening : Subscriptions Regex} {id : ℕ} {s t : State Regex} {act : Act} {past : Past Regex}

/-- **No step of any thread, at either end of any connection, puts a byte of it out of its place.** -/
theorem step (h : Carried engine opening id s past) (hkept : Kept engine s.bus (bus past))
    (hpattern : ∀ pattern, act.pattern = some pattern → Fits32 pattern)
    (hstep : Relayed.step engine s act = some t) :
    Carried engine opening id t (past ++ [(s, act, t)]) := by
  have hrelay : RelayEnd id t.bus (bus (past ++ [(s, act, t)])) :=
    (keeps_of_bus (P := fun u before => Kept engine u before ∧ RelayEnd id u before)
      (fun _ _ _ _ h ha => ⟨h.1.step ha, h.2.step h.1 ha⟩) ⟨hkept, h.relayEnd⟩ hstep).2
  have htaken := keeps_of_bus (P := Taken engine id) (fun _ _ _ _ h ha => h.step ha) h.taken hstep
  have hwire := wire_step hkept hstep id
  have harrived := arrived_bus_concat id past s t act
  have hle := h.up_le
  have hclientEnd : (t.clients id).opening = (s.clients id).opening →
      (t.clients id).dial = (s.clients id).dial → (t.clients id).rules = (s.clients id).rules →
      act.publishes id = [] → ClientEnd opening (t.clients id) (asked id (past ++ [(s, act, t)]))
        (offered id (past ++ [(s, act, t)])) (controls id (past ++ [(s, act, t)])) := by
    intro hopening hdial hrules hpublishes
    rw [asked_concat, offered_concat, controls_concat, hdial, (Quiet.refl _).2, (Quiet.refl _).2,
      hpublishes, List.append_nil, List.append_nil, List.append_nil]
    exact h.clientEnd.congr hopening hdial hrules
  rcases client_cases hstep id with ⟨move, rfl, hmove, -⟩ | ⟨count, rfl, hcomes, hclient⟩ |
    ⟨cut, torn, rfl, hbus, hclient⟩ | ⟨hclient, hpublishes, hcomes⟩
  · obtain ⟨hopening, hreader, hup, hdown⟩ := Client.rest_step hmove
    obtain ⟨told, -, hagrees⟩ := h.clientEnd.agrees
    have hsent : (s.clients id).sent <+: (t.clients id).sent := by
      unfold Client.sent
      rw [hopening]
      refine (List.prefix_append_right_inj _).2 ?_
      rcases Client.link_step hagrees hmove with hlink | ⟨m, hlink⟩
      · rw [hlink]
      · exact Link.wire_move hlink
    refine ⟨hrelay, ?_, htaken, ?_, ?_, ?_⟩
    · rw [asked_concat, offered_concat, controls_concat, Act.publishes, if_pos rfl]
      exact h.clientEnd.step hpattern hmove
    · rw [hup]
      exact hle.trans hsent.length_le
    · rw [harrived, h.arrived, hup]
      obtain ⟨more, hmore⟩ := hsent
      rw [← hmore, List.take_append_of_le_length hle]
      exact List.append_nil _
    · rw [hreader, hdown]
      exact (h.hears.mono hwire).weaken fun _ => Listens.before
  · have hbytes : (s.coming id count).length =
        min count ((s.clients id).sent.length - (s.clients id).up) := by
      unfold State.coming
      rw [List.length_take, List.length_drop]
    refine ⟨hrelay, hclientEnd (by rw [hclient]) (by rw [hclient]) (by rw [hclient]; rfl) rfl, htaken,
      ?_, ?_, ?_⟩
    · rw [hclient]
      show (s.clients id).up + (s.coming id count).length ≤ (s.clients id).sent.length
      omega
    · have hcoming : s.coming id count =
          ((s.clients id).sent.drop (s.clients id).up).take (s.coming id count).length := by
        unfold State.coming
        rw [List.length_take, ← List.take_eq_take_min]
      have hread : (s.clients id).sent.take ((s.clients id).up + (s.coming id count).length) =
          (s.clients id).sent.take (s.clients id).up ++ s.coming id count := by
        rw [List.take_add, ← hcoming]
      rw [harrived, h.arrived, hcomes, hclient]
      exact hread.symm
    · rw [hclient]
      exact (h.hears.mono hwire).weaken fun _ => Listens.before
  · have hturn := h.hears.turn engine (s.clients id).subscriptions cut torn rfl
    refine ⟨hrelay, hclientEnd (by rw [hclient]; rfl) (by rw [hclient]; rfl) (by rw [hclient]; rfl) rfl,
      htaken, ?_, ?_, ?_⟩
    · rw [hclient]
      exact hle
    · rw [harrived, h.arrived, hclient]
      exact List.append_nil _
    · rw [hclient]
      exact (hturn.mono hwire).weaken fun channel hchannel =>
        ⟨hchannel.before, hchannel (s, .read id cut torn, t) (by simp) (decide_eq_true rfl)⟩
  · refine ⟨hrelay, hclientEnd (by rw [hclient]) (by rw [hclient]) (by rw [hclient]) hpublishes, htaken,
      hclient ▸ hle, ?_, ?_⟩
    · rw [harrived, hcomes, List.append_nil, h.arrived, hclient]
    · rw [hclient]
      exact (h.hears.mono hwire).weaken fun _ => Listens.before

end Carried

/-! ### What a client sent -/

/-- What a decoder waits for, where it waits. -/
def awaits {α : Type} : Except WireError (Decoded α) → Option ℕ
  | .ok (.need bytes) => some bytes
  | _ => none

theorem eq_need_of_awaits {α : Type} {found : Except WireError (Decoded α)}
    (h : (awaits found).isSome = true) : ∃ bytes, found = .ok (.need bytes) := by
  unfold awaits at h
  split at h
  · exact ⟨_, rfl⟩
  · cases h

/-- A client whose writer has nothing to do, and whose relay has read and taken all of it. -/
structure UpDrained (s : State Regex) (id : ℕ) : Prop where
  writer : Link.Drained (s.clients id).dial.link
  read : (s.clients id).up = (s.clients id).sent.length
  taken : (awaits (Tcpq.decodeRequest (s.bus.incoming id))).isSome = true

instance (s : State Regex) (id : ℕ) : Decidable (UpDrained s id) :=
  decidable_of_iff (Link.Drained (s.clients id).dial.link ∧
      (s.clients id).up = (s.clients id).sent.length ∧
      (awaits (Tcpq.decodeRequest (s.bus.incoming id))).isSome = true)
    ⟨fun ⟨hwriter, hread, htaken⟩ => ⟨hwriter, hread, htaken⟩, fun h => ⟨h.writer, h.read, h.taken⟩⟩

/-- The requests of a stream, each with its frame, as a client writes them. -/
def Written (sent : List (Tcpq.Request × Bytes)) : Prop :=
  ∀ item ∈ sent, Rules.frameOf item.1 = .ok item.2 ∧
    ∀ tell, Rules.tellOf item.1 = some tell → Fits32 tell.text

/-- The frames of the publishes in it. -/
def messagesOf (sent : List (Tcpq.Request × Bytes)) : List Bytes :=
  sent.filterMap fun item => publishOf (some item.1)

/-- What it says of the rules. -/
def tellsOf (sent : List (Tcpq.Request × Bytes)) : List Rules.Tell :=
  sent.filterMap fun item => Rules.tellOf item.1

/-- A request is a publish, or it is what its frame says of the rules. -/
theorem request_cases (request : Tcpq.Request) : (∃ frame, request = .publish frame) ∨
    ∃ tell, Rules.tellOf request = some tell ∧ request = tell.request ∧
      Rules.frameOf request = .ok tell.frame := by
  cases request with
  | publish frame => exact .inl ⟨frame, rfl⟩
  | subscribe text => exact .inr ⟨.subscribe text, rfl, rfl, rfl⟩
  | unsubscribe text => exact .inr ⟨.unsubscribe text, rfl, rfl, rfl⟩

/-- A relay takes such a request, or it stops there. -/
theorem Written.run {sent : List (Tcpq.Request × Bytes)} (h : Written sent) :
    ∀ item ∈ sent, Tcpq.requestPlan.run item.2 = .take (some item.1) item.2.length ∨
      ∃ e, Tcpq.requestPlan.run item.2 = .fail e := by
  rintro ⟨request, bytes⟩ hitem
  obtain ⟨hframe, hfits⟩ := h _ hitem
  obtain ⟨frame, rfl⟩ | ⟨tell, htell, hrequest, hwritten⟩ := request_cases request
  · exact .inl (Rules.requestPlan_run (show Rules.Accepted noPatterns (.publish frame) from trivial)
      hframe)
  · have hbytes : bytes = tell.frame := Except.ok.inj (hframe.symm.trans hwritten)
    rw [hbytes, hrequest]
    exact Rules.Tell.requestPlan_run (hfits tell htell)

/-- So it finds the first of them, and all of them where it did not stop. -/
theorem Written.parse {sent : List (Tcpq.Request × Bytes)} (h : Written sent) :
    let found := Incremental.parse Tcpq.requestPlan.run (sent.flatMap Prod.snd)
    found.1 <+: sent.map (fun item => some item.1) ∧
      (found.2 = none → found.1 = sent.map fun item => some item.1) := by
  have hrun : ∀ item ∈ sent.map (fun item => (some item.1, item.2)),
      Tcpq.requestPlan.run item.2 = .take item.1 item.2.length ∨
        ∃ e, Tcpq.requestPlan.run item.2 = .fail e := fun item hitem => by
    obtain ⟨request, hrequest, rfl⟩ := List.mem_map.1 hitem
    exact h.run request hrequest
  have hfirst := Tcpq.fits_requestPlan.stable.parse_isPrefix ⟨_, rfl⟩ hrun
  have hall := Tcpq.fits_requestPlan.stable.parse_eq_of_none ⟨_, rfl⟩ hrun
  rw [List.flatMap_map, List.map_map] at hfirst hall
  exact ⟨hfirst, hall⟩

/-- The frames of both lanes are those of requests. -/
theorem written_of_took {took : List (Lane × Bytes)}
    (hmessage : ∀ bytes ∈ ofLane .message took, ∃ frame, Tcpq.publish frame = .ok bytes)
    (hcontrol : Client.Tells (ofLane .control took)) :
    ∃ sent, Written sent ∧ sent.map Prod.snd = took.map Prod.snd ∧
      messagesOf sent = ofLane .message took ∧
      (tellsOf sent).map Rules.Tell.frame = ofLane .control took := by
  induction took with
  | nil => exact ⟨[], (fun _ h => nomatch h), rfl, rfl, rfl⟩
  | cons entry took ih =>
    obtain ⟨lane, bytes⟩ := entry
    have hcons : ∀ other, ofLane other ((lane, bytes) :: took) =
        (if lane = other then [bytes] else []) ++ ofLane other took := fun other => by
      rw [← ofLane_singleton, ← ofLane_append]
      rfl
    rw [hcons] at hmessage hcontrol
    obtain ⟨sent, hwritten, hsent, hmessages, htells⟩ := ih
      (fun found hfound => hmessage found (List.mem_append_right _ hfound))
      (fun found hfound => hcontrol found (List.mem_append_right _ hfound))
    rw [hcons, hcons]
    cases lane with
    | message =>
      obtain ⟨frame, hframe⟩ := hmessage bytes (by simp)
      refine ⟨(.publish frame, bytes) :: sent, List.forall_mem_cons.2 ⟨⟨hframe, by simp [Rules.tellOf]⟩,
        hwritten⟩, by simp [hsent], ?_, ?_⟩
      · rw [← hmessages, messagesOf, List.filterMap_cons]
        simp [publishOf, hframe, Except.toOption, messagesOf]
      · exact htells
    | control =>
      obtain ⟨tell, hfits, rfl⟩ := hcontrol bytes (by simp)
      refine ⟨(tell.request, tell.frame) :: sent, List.forall_mem_cons.2 ⟨?_, hwritten⟩,
        by simp [hsent], ?_, ?_⟩
      · cases tell <;> exact ⟨rfl, by rintro _ ⟨⟩; exact hfits⟩
      · cases tell <;> exact hmessages
      · rw [← htells]
        cases tell <;> rfl

namespace Carried

variable {opening : Subscriptions Regex} {id : ℕ} {s : State Regex} {past : Past Regex}

/-- What a client sent is the first of its opening subscriptions, and of what it let in; and it is all
of that where its writer has nothing to do. -/
theorem sends (h : Carried engine opening id s past)
    (hopening : ∀ text ∈ opening.forARelay, Fits32 text) :
    ∃ sent told, Written sent ∧ tellsOf sent = opening.forARelay.map Rules.Tell.subscribe ++ told ∧
      (s.clients id).sent <+: sent.flatMap Prod.snd ∧ messagesOf sent <+: offered id past ∧
      (Link.Drained (s.clients id).dial.link → (s.clients id).sent = sent.flatMap Prod.snd ∧
        messagesOf sent = offered id past ∧ told.map Rules.Tell.frame = controls id past) := by
  obtain ⟨linkPast, hsound, hmessage, hcontrol⟩ := h.clientEnd.link
  have hmessages := hsound.took_isPrefix .message
  have hcontrols := hsound.took_isPrefix .control
  rw [hmessage] at hmessages
  rw [hcontrol] at hcontrols
  obtain ⟨sent, hwritten, hsent, hpublishes, htells⟩ := written_of_took
    (fun bytes hbytes => by
      obtain ⟨frame, -, hframe⟩ := h.clientEnd.frames bytes (hmessages.subset hbytes)
      exact ⟨frame, hframe⟩)
    (fun frame hframe => h.clientEnd.tells frame (hcontrols.subset hframe))
  have hfirst : (opening.forARelay.map fun text => (Tcpq.Request.subscribe text,
      Tcpq.subscribe text)).flatMap Prod.snd = (s.clients id).opening.flatMap Tcpq.subscribe := by
    rw [h.clientEnd.opens, List.flatMap_map]
  have hflat : sent.flatMap Prod.snd = ((Link.took linkPast).map Prod.snd).flatten := by
    rw [← hsent, List.flatMap_def]
  have hnone : messagesOf (opening.forARelay.map (fun text =>
      (Tcpq.Request.subscribe text, Tcpq.subscribe text)) ++ sent) = messagesOf sent := by
    simp [messagesOf, publishOf]
  refine ⟨opening.forARelay.map (fun text => (.subscribe text, Tcpq.subscribe text)) ++ sent,
    tellsOf sent, fun item hitem => ?_, ?_, ?_, ?_, fun hdrained => ?_⟩
  · rcases List.mem_append.1 hitem with hitem | hitem
    · obtain ⟨text, htext, rfl⟩ := List.mem_map.1 hitem
      refine ⟨rfl, ?_⟩
      rintro _ ⟨⟩
      exact hopening text htext
    · exact hwritten item hitem
  · simp [tellsOf, Rules.tellOf]
  · rw [List.flatMap_append, hfirst, hflat]
    exact (List.prefix_append_right_inj _).2 hsound.wire_isPrefix
  · rw [hnone, hpublishes]
    exact hmessages
  · obtain ⟨hwire, htook⟩ := hsound.drained hdrained
    refine ⟨?_, ?_, ?_⟩
    · rw [List.flatMap_append, hfirst, hflat, ← hwire]
      rfl
    · rw [hnone, hpublishes, htook, hmessage]
    · rw [htells, htook, hcontrol]

/-- **What the relay publishes for a client is the first of what that client let into its messages.** -/
theorem published_isPrefix (h : Carried engine opening id s past)
    (hopening : ∀ text ∈ opening.forARelay, Fits32 text) :
    (published (.peer id) (bus past)).map Job.encoded <+: offered id past := by
  obtain ⟨sent, told, hwritten, -, hsent, hmessages, -⟩ := h.sends hopening
  obtain ⟨found, hleaves, hpublished, -⟩ := h.taken
  have harrived : Dispatch.arrived id (bus past) <+: sent.flatMap Prod.snd := by
    rw [h.arrived]
    exact (List.take_prefix _ _).trans hsent
  rw [hpublished]
  refine (((hleaves.found_isPrefix harrived).trans hwritten.parse.1).filterMap publishOf).trans ?_
  rw [List.filterMap_map]
  exact hmessages

/-- **Behind such a client the relay has published all that it let in, and holds its rules**, where
their texts can be read and built. -/
theorem up_drained (h : Carried engine opening id s past)
    (hopening : ∀ text ∈ opening.forARelay, Fits32 text) (hdrained : UpDrained s id) :
    (published (.peer id) (bus past)).map Job.encoded = offered id past ∧
      ((∀ text ∈ opening.forARelay, Rules.Accepted engine (.subscribe text)) →
        (∀ tell : Rules.Tell, tell.frame ∈ controls id past → Rules.Accepted engine tell.request) →
        (s.clients id).changing = none →
        Rules.texts (s.bus.subscriptions id) = Rules.texts (s.clients id).subscriptions) := by
  obtain ⟨sent, told, hwritten, htells, -, -, hall⟩ := h.sends hopening
  obtain ⟨hsent, hmessages, hcontrols⟩ := hall hdrained.writer
  obtain ⟨found, hleaves, hpublished, hrules⟩ := h.taken
  -- The relay waits behind the last of the requests, so that it stopped at none.
  have hfound : found = sent.map fun item => some item.1 := by
    obtain ⟨n, hneed⟩ := eq_need_of_awaits hdrained.taken
    have hrun := Tcpq.answer_decodeRequest (s.bus.incoming id)
    rw [hneed] at hrun
    have heq := hleaves.found_eq hrun.symm
    rw [h.arrived, hdrained.read, List.take_length, hsent] at heq
    have hparse := hwritten.parse.2
    rw [heq] at hparse
    exact hparse rfl
  refine ⟨?_, fun haccepts htold hfree => ?_⟩
  · rw [hpublished, hfound, List.filterMap_map, ← hmessages]
    rfl
  · have haccepted : ∀ request ∈ sent.map Prod.fst, Rules.Accepted engine request := by
      intro request hrequest
      obtain ⟨item, hitem, rfl⟩ := List.mem_map.1 hrequest
      obtain ⟨frame, hframe⟩ | ⟨tell, htell, hrequest, -⟩ := request_cases item.1
      · rw [hframe]
        trivial
      · have hmem : tell ∈ tellsOf sent := List.mem_filterMap.2 ⟨item, hitem, htell⟩
        rw [htells] at hmem
        rw [hrequest]
        rcases List.mem_append.1 hmem with hmem | hmem
        · obtain ⟨text, htext, rfl⟩ := List.mem_map.1 hmem
          exact haccepts text htext
        · exact htold tell (hcontrols ▸ List.mem_map_of_mem hmem)
    obtain ⟨told', htold', hagrees⟩ := h.clientEnd.agrees
    have hsame : told = told' :=
      Rules.Tell.frame_injective.list_map (hcontrols.trans htold')
    have hnone : ∀ name change, (s.clients id).ops name ≠ some (.told change) :=
      fun name change hop => by cases hfree.symm.trans (hagrees.holder name _ hop rfl)
    have hclient : Rules.texts (s.clients id).subscriptions = _ := hagrees.settled hnone
    have hnew : Rules.Told (⟨[], .new, []⟩ : Serve.Acted Regex).subscriptions := by rintro _ ⟨⟩
    have hfold := Rules.fold_texts haccepted hnew
    have htellsOf : (sent.map Prod.fst).filterMap Rules.tellOf = tellsOf sent := List.filterMap_map
    have hbehind : Rules.behind 0 (tellsOf sent) = Rules.behind (Rules.texts opening) told := by
      rw [htells]
      exact Rules.behind_opening _ _
    rw [htellsOf, List.map_map, Rules.texts_new] at hfold
    rw [hrules, hfound, rulesOf, hclient, ← hsame, ← hbehind]
    exact hfold

end Carried

/-! ### What a client hears -/

/-- What was let through to a client of one publisher. -/
theorem through_filter (p : Publisher) (id : ℕ)
    (past : List (Dispatch.State Regex × Dispatch.Act × Dispatch.State Regex)) :
    ((through id past).filter fun entry => entry.1 = p).map Prod.snd =
      (admitted p id past).map Prod.fst := by
  induction past with
  | nil => rfl
  | cons entry past ih =>
    obtain ⟨s, act, t⟩ := entry
    have hthrough : through id ((s, act, t) :: past) = lets id s act t ++ through id past := rfl
    have hadmitted : admitted p id ((s, act, t) :: past) =
        Dispatch.admits p id s act t ++ admitted p id past := rfl
    rw [hthrough, hadmitted, List.filter_append, List.map_append, List.map_append, ih]
    congr 1
    unfold lets
    cases hp : act.publisher with
    | none => simp [Dispatch.admits, hp]
    | some q =>
      rcases eq_or_ne q p with rfl | hne
      · simp [List.filter_map, Function.comp_def]
      · simp [List.filter_map, Function.comp_def, hne, Dispatch.admits, hp]

/-- What was let through to a client is of a publish, as it was written for it. -/
theorem mem_through {past : List (Dispatch.State Regex × Dispatch.Act × Dispatch.State Regex)}
    {s : Dispatch.State Regex} (hkept : Kept engine s past) {id : ℕ} {entry : Publisher × Job}
    (h : entry ∈ through id past) : Tcpq.publish entry.2.frame = .ok entry.2.encoded ∧
      Tested engine entry.1 entry.2 id past := by
  have hmem : entry.2 ∈ (admitted entry.1 id past).map Prod.fst := by
    rw [← through_filter]
    exact List.mem_map_of_mem (List.mem_filter.2 ⟨h, by simp⟩)
  refine ⟨hkept.encoded _ _ ((hkept.fair entry.1 id).part.subset hmem), ?_⟩
  obtain ⟨found, hfound, hjob⟩ := List.mem_map.1 hmem
  rw [← hjob]
  exact hkept.tested entry.1 id found hfound

/-- A client that has read all that the relay sent to it, where the relay's writer has nothing to do. -/
structure DownDrained (s : State Regex) (id : ℕ) : Prop where
  writer : Link.Drained (linkOf s.bus.relay id)
  read : (s.clients id).down = (s.wire id).length
  taken : (awaits (Tcpq.decode (s.clients id).reader.pending.unread)).isSome = true

instance (s : State Regex) (id : ℕ) : Decidable (DownDrained s id) :=
  decidable_of_iff (Link.Drained (linkOf s.bus.relay id) ∧
      (s.clients id).down = (s.wire id).length ∧
      (awaits (Tcpq.decode (s.clients id).reader.pending.unread)).isSome = true)
    ⟨fun ⟨hwriter, hread, htaken⟩ => ⟨hwriter, hread, htaken⟩, fun h => ⟨h.writer, h.read, h.taken⟩⟩

/-- **What a client found is the first of what the relay let through to it**, and it is all of that
where neither has anything left to do. -/
theorem Carried.heard_isPrefix {opening : Subscriptions Regex} {id : ℕ} {s : State Regex}
    {past : Past Regex} (h : Carried engine opening id s past) (hkept : Kept engine s.bus (bus past)) :
    ∃ heard, heard <+: through id (bus past) ∧
      Heeds (Listens engine id past) (s.clients id).reader.heard (heard.map fun entry => some entry.2.frame) ∧
      (DownDrained s id → heard = through id (bus past)) := by
  obtain ⟨linkPast, hsound, hcontrol, hmessage⟩ := h.relayEnd
  obtain ⟨found, hleaves, hheeds⟩ := h.hears.heard
  -- The writer took messages only, so that they are the first of those let through.
  have hlane : (Link.took linkPast).map Prod.snd = ofLane .message (Link.took linkPast) := by
    have hnone : ofLane .control (Link.took linkPast) = [] := by
      have hprefix := hsound.took_isPrefix .control
      rw [hcontrol] at hprefix
      exact List.prefix_nil.1 hprefix
    have hall : (Link.took linkPast).filter (fun entry => entry.1 = .message) = Link.took linkPast := by
      refine List.filter_eq_self.2 fun entry hentry => ?_
      obtain ⟨lane, frame⟩ := entry
      cases lane with
      | message => rfl
      | control =>
        have hmem : frame ∈ ofLane .control (Link.took linkPast) :=
          List.mem_map.2 ⟨_, List.mem_filter.2 ⟨hentry, rfl⟩, rfl⟩
        rw [hnone] at hmem
        cases hmem
    rw [ofLane, hall]
  have hprefix := hsound.took_isPrefix .message
  rw [hmessage] at hprefix
  obtain ⟨first, hfirst, htook⟩ : ∃ first, first <+: through id (bus past) ∧
      (Link.took linkPast).map Prod.snd = first.map fun entry => entry.2.encoded := by
    obtain ⟨first, hfirst, hmap⟩ := List.prefix_map_iff.1 hprefix
    exact ⟨first, hfirst, hlane.trans hmap⟩
  have hparse : parse Tcpq.framePlan.run (((Link.took linkPast).map Prod.snd).flatten) =
      (first.map fun entry => some entry.2.frame, none) := by
    have hitems : ∀ item ∈ first.map (fun entry => (some entry.2.frame, entry.2.encoded)),
        Tcpq.framePlan.run item.2 = .take item.1 item.2.length := fun item hitem => by
      obtain ⟨entry, hentry, rfl⟩ := List.mem_map.1 hitem
      have hread := (Tcpq.readers_of_publish (mem_through hkept (hfirst.subset hentry)).1 []).1
      rw [List.append_nil] at hread
      rw [← Tcpq.answer_decode, hread, answer]
    have hall := Tcpq.fits_framePlan.stable.parse_flatMap ⟨_, rfl⟩ hitems
    rw [List.flatMap_map, List.map_map] at hall
    rw [htook, ← List.flatMap_def]
    exact hall
  have hread : (s.wire id).take (s.clients id).down <+: ((Link.took linkPast).map Prod.snd).flatten :=
    (List.take_prefix _ _).trans hsound.wire_isPrefix
  have hfound := hleaves.found_isPrefix hread
  rw [hparse] at hfound
  obtain ⟨heard, hheard, rfl⟩ := List.prefix_map_iff.1 hfound
  refine ⟨heard, hheard.trans hfirst, hheeds, fun hdrained => ?_⟩
  obtain ⟨hwire, hlanes⟩ := hsound.drained hdrained.writer
  have hwhole : first = through id (bus past) := by
    refine hfirst.eq_of_length ?_
    have hlength := congrArg List.length (hlane.trans (hlanes .message))
    rw [htook, hmessage, List.length_map, List.length_map] at hlength
    exact hlength
  obtain ⟨n, hneed⟩ := eq_need_of_awaits hdrained.taken
  have hrun := Tcpq.answer_decode (s.clients id).reader.pending.unread
  rw [hneed] at hrun
  have heq := hleaves.found_eq hrun.symm
  rw [hdrained.read, List.take_length, State.wire, hwire, hparse, hwhole] at heq
  have hlength := congrArg List.length (Prod.mk.inj heq).1
  rw [List.length_map, List.length_map] at hlength
  exact (hheard.trans hfirst).eq_of_length hlength.symm

/-! ### Every run -/

variable {receives : ℕ → Bool} {opening : ℕ → Subscriptions Regex}

/-- What holds behind every run. -/
theorem carried_of_run (hopening : ∀ id, ∀ text ∈ (opening id).forARelay, Fits32 text)
    {acts : List Act} {s : State Regex} (hacts : ∀ act ∈ acts, ∀ pattern, act.pattern = some pattern →
      Fits32 pattern) (hrun : Machine.run (step engine) (start receives opening) acts = some s) :
    let past := Machine.transitions (step engine) (start receives opening) acts
    Kept engine s.bus (bus past) ∧ ∀ id, Carried engine (opening id) id s past := by
  intro past
  have hstart : (∀ entry ∈ ([] : Past Regex), ∀ pattern, entry.2.1.pattern = some pattern →
      Fits32 pattern) → Kept engine (start receives opening).bus (bus ([] : Past Regex)) ∧
        ∀ id, Carried engine (opening id) id (start receives opening) [] :=
    fun _ => ⟨Dispatch.kept_start, fun id => carried_start receives id (hopening id)⟩
  have hhistory := Machine.run_history (P := fun s past => (∀ entry ∈ past, ∀ pattern,
      entry.2.1.pattern = some pattern → Fits32 pattern) → Kept engine s.bus (bus past) ∧
        ∀ id, Carried engine (opening id) id s past)
    (fun u before act v h hstep hpast => by
      obtain ⟨hkept, hcarried⟩ := h fun entry hentry => hpast entry (List.mem_append_left _ hentry)
      have hpattern := hpast (u, act, v) (by simp)
      exact ⟨keeps_of_bus (P := Kept engine) (fun _ _ _ _ h ha => h.step ha) hkept hstep,
        fun id => (hcarried id).step hkept hpattern hstep⟩) hstart hrun
  rw [List.nil_append] at hhistory
  refine hhistory fun entry hentry => hacts _ ?_
  exact Machine.mem_of_mem_transitions hentry

/-- **A client hears of every publisher a part of what that one published, in its order and no more
than once**, in any interleaving of the threads at both ends of all connections, however the bytes are
cut, and whichever ends, panics or is refused.  What a client found is the first of what the relay let
through to it, and its handler heard a part of that.  What was let through of another client is a part
of what that one let into its messages, each one the frame of a publish that it was asked for; of a
thread of the relay it is a part of what that one published.  Each was let through behind a test of
the rules that the relay held for the client. -/
theorem hears_in_order (hopening : ∀ id, ∀ text ∈ (opening id).forARelay, Fits32 text)
    {acts : List Act} {s : State Regex} (hacts : ∀ act ∈ acts, ∀ pattern, act.pattern = some pattern →
      Fits32 pattern) (hrun : Machine.run (step engine) (start receives opening) acts = some s) :
    let past := Machine.transitions (step engine) (start receives opening) acts
    (∀ id, ∃ heard, heard <+: through id (bus past) ∧
      (s.clients id).reader.heard.counters.received = heard.length ∧
      (s.clients id).reader.heard.delivered.Sublist (heard.map fun entry => entry.2.frame) ∧
      (∀ other, ((heard.filter fun entry => entry.1 = .peer other).map
        fun entry => entry.2.encoded).Sublist (offered other past)) ∧
      (∀ name, ((heard.filter fun entry => entry.1 = .thread name).map Prod.snd).Sublist
        (published (.thread name) (bus past))) ∧
      ∀ entry ∈ heard, Tcpq.publish entry.2.frame = .ok entry.2.encoded ∧
        Tested engine entry.1 entry.2 id (bus past)) ∧
    ∀ id, ∀ bytes ∈ offered id past, Client.Encodes (asked id past) bytes := by
  intro past
  obtain ⟨hkept, hcarried⟩ := carried_of_run hopening hacts hrun
  refine ⟨fun id => ?_, fun id => (hcarried id).clientEnd.frames⟩
  obtain ⟨heard, hheard, hheeds, -⟩ := (hcarried id).heard_isPrefix hkept
  have hpart : ∀ p, ((heard.filter fun entry => entry.1 = p).map Prod.snd).Sublist
      (published p (bus past)) := fun p => by
    have hsublist := (hheard.sublist.filter fun entry => entry.1 = p).map Prod.snd
    rw [through_filter] at hsublist
    exact hsublist.trans (hkept.fair p id).part
  refine ⟨heard, hheard, ?_, ?_, fun other => ?_, fun name => hpart (.thread name),
    fun entry hentry => mem_through hkept (hheard.subset hentry)⟩
  · rw [hheeds.received, List.length_map]
  · have hframes : (heard.map fun entry => some entry.2.frame).reduceOption =
        heard.map fun entry => entry.2.frame := by simp [List.reduceOption]
    exact hframes ▸ hheeds.part
  · have hencoded := (hpart (.peer other)).map Job.encoded
    rw [List.map_map] at hencoded
    exact hencoded.trans ((hcarried other).published_isPrefix (hopening other)).sublist

/-- A run of two clients, of which the first publishes, and the other opened with the name of that. -/
def oneMessage : List Act :=
  let connect : List Act := [.poll, .accept, .spawnWriter, .spawnReader, .push, .finish].map
    fun act => .bus (.relay act)
  let writes : List Link.Act := [.look, .take, .check, .write (.bytes 14) false, .check, .finish]
  [connect, connect, [.up 1 99, .bus (.request 1), .client 0 (.publish 5 ⟨"a", [7]⟩ false)],
    writes.map (fun act => .client 0 (.dial (.link act))),
    [.up 0 99, .bus (.request 0), .bus (.snapshot (.peer 0)), .bus (.visit (.peer 0)),
      .bus (.visit (.peer 0)), .bus (.put (.peer 0) 5 false), .bus (.visit (.peer 0))],
    writes.map (fun act => .bus (.relay (.peer 1 act))),
    [.read 1 (.bytes 99) none, .read 1 .timedOut none]].flatten

/-- Nobody gives a pattern in it. -/
theorem pattern_oneMessage : ∀ act ∈ oneMessage, ∀ pattern, act.pattern = some pattern →
    Fits32 pattern := by
  have hnone : ∀ act ∈ oneMessage, act.pattern = none := by decide +kernel
  intro act hact pattern hpattern
  cases (hnone act hact).symm.trans hpattern

/-- The other client hears it. -/
theorem hears_in_order_of_two :
    let engine : Engine String := ⟨.ok, fun compiled text => some (compiled = "^(?:" ++ text ++ ")$")⟩
    let opening : ℕ → Subscriptions String := fun id => ⟨if id = 1 then [.name "a"] else []⟩
    let past := Machine.transitions (step engine) (start (fun _ => true) opening) oneMessage
    ∃ s, Machine.run (step engine) (start (fun _ => true) opening) oneMessage = some s ∧
      (s.clients 1).reader.heard.delivered = [⟨"a", [7]⟩] ∧
      (offered 0 past).length = 1 ∧ ∃ heard : List (Publisher × Job), heard.length = 1 ∧
        ((heard.filter fun entry => entry.1 = .peer 0).map fun entry => entry.2.encoded).Sublist
          (offered 0 past) := by
  intro engine opening past
  have hend : (Machine.run (step engine) (start (fun _ => true) opening) oneMessage).map (fun s =>
      ((s.clients 1).reader.heard.delivered, (s.clients 1).reader.heard.counters.received)) =
      some ([⟨"a", [7]⟩], 1) := by decide +kernel
  obtain ⟨s, hrun, hs⟩ := Option.map_eq_some_iff.1 hend
  obtain ⟨hdelivered, hreceived⟩ := Prod.ext_iff.1 hs
  have hopening : ∀ id, ∀ text ∈ (opening id).forARelay, Fits32 text := by
    intro id text htext
    dsimp only [opening] at htext
    split_ifs at htext
    · rw [List.mem_singleton.1 htext]
      decide +kernel
    · cases htext
  obtain ⟨heard, -, hlength, -, hothers, -⟩ := (hears_in_order hopening pattern_oneMessage hrun).1 1
  exact ⟨s, hrun, hdelivered, by decide +kernel, heard, hlength.symm.trans hreceived, hothers 0⟩

/-- **Nothing is lost on a connection that both ends are done with.**  Where the writer of a client has
nothing to do, and the relay has read and taken all that it sent, the relay has published every message
that the client let in, and holds the rules that the client does, if their texts can be read and built.
Where the relay's writer has nothing to do, and a client has read and taken all that was sent to it,
the client has counted every message that the relay let through to it. -/
theorem misses_nothing (hopening : ∀ id, ∀ text ∈ (opening id).forARelay, Fits32 text)
    {acts : List Act} {s : State Regex} (hacts : ∀ act ∈ acts, ∀ pattern, act.pattern = some pattern →
      Fits32 pattern) (hrun : Machine.run (step engine) (start receives opening) acts = some s) :
    let past := Machine.transitions (step engine) (start receives opening) acts
    ∀ id, (UpDrained s id →
        (published (.peer id) (bus past)).map Job.encoded = offered id past ∧
        ((∀ text ∈ (opening id).forARelay, Rules.Accepted engine (.subscribe text)) →
          (∀ tell : Rules.Tell, tell.frame ∈ controls id past → Rules.Accepted engine tell.request) →
          (s.clients id).changing = none →
          Rules.texts (s.bus.subscriptions id) = Rules.texts (s.clients id).subscriptions)) ∧
      (DownDrained s id →
        (s.clients id).reader.heard.counters.received = (through id (bus past)).length ∧
        (s.clients id).reader.heard.delivered.Sublist
          ((through id (bus past)).map fun entry => entry.2.frame)) := by
  intro past id
  obtain ⟨hkept, hcarried⟩ := carried_of_run hopening hacts hrun
  refine ⟨fun hdrained => (hcarried id).up_drained (hopening id) hdrained, fun hdrained => ?_⟩
  obtain ⟨heard, -, hheeds, hall⟩ := (hcarried id).heard_isPrefix hkept
  obtain rfl := hall hdrained
  have hframes : ((through id (bus past)).map fun entry => some entry.2.frame).reduceOption =
      (through id (bus past)).map fun entry => entry.2.frame := by simp [List.reduceOption]
  exact ⟨by rw [hheeds.received, List.length_map], hframes ▸ hheeds.part⟩

/-- Behind that run both ends of both connections are done. -/
theorem misses_nothing_of_two :
    let engine : Engine String := ⟨.ok, fun compiled text => some (compiled = "^(?:" ++ text ++ ")$")⟩
    let opening : ℕ → Subscriptions String := fun id => ⟨if id = 1 then [.name "a"] else []⟩
    let past := Machine.transitions (step engine) (start (fun _ => true) opening) oneMessage
    ∃ s, Machine.run (step engine) (start (fun _ => true) opening) oneMessage = some s ∧
      (published (.peer 0) (bus past)).map Job.encoded = offered 0 past ∧
      Rules.texts (s.bus.subscriptions 1) = Rules.texts (s.clients 1).subscriptions ∧
      (through 1 (bus past)).length = 1 ∧
      (s.clients 1).reader.heard.counters.received = (through 1 (bus past)).length := by
  intro engine opening past
  have hend : (Machine.run (step engine) (start (fun _ => true) opening) oneMessage).any (fun s =>
      UpDrained s 0 ∧ UpDrained s 1 ∧ DownDrained s 1 ∧ (s.clients 1).changing = none) = true := by
    decide +kernel
  obtain ⟨s, hrun, hs⟩ := (Option.any_eq_true _ _).1 hend
  obtain ⟨hpublisher, hup, hdown, hfree⟩ := of_decide_eq_true hs
  have htext : Rules.Accepted engine (.subscribe (escaped "a")) :=
    ⟨by decide +kernel, .pattern (escaped "a") ("^(?:" ++ escaped "a" ++ ")$"), rfl⟩
  have hopening : ∀ id, ∀ text ∈ (opening id).forARelay, Rules.Accepted engine (.subscribe text) := by
    intro id text htext'
    dsimp only [opening] at htext'
    split_ifs at htext'
    · rwa [List.mem_singleton.1 htext']
    · cases htext'
  have hnone : ∀ id ∈ [0, 1], controls id past = [] := by decide +kernel
  have htold : ∀ id ∈ [0, 1], ∀ tell : Rules.Tell, tell.frame ∈ controls id past →
      Rules.Accepted engine tell.request := fun id hid tell htell => by
    rw [hnone id hid] at htell
    cases htell
  have hmax : Tcpq.channelReadMax < UInt32.size := by decide
  have hfits : ∀ id, ∀ text ∈ (opening id).forARelay, Fits32 text :=
    fun id text htext => (hopening id text htext).1.trans_lt hmax
  have hall := misses_nothing hfits pattern_oneMessage hrun
  exact ⟨s, hrun, ((hall 0).1 hpublisher).1,
    ((hall 1).1 hup).2 (hopening 1) (htold 1 (by simp)) hfree, by decide +kernel, ((hall 1).2 hdown).1⟩

end LcmBus.Relayed
