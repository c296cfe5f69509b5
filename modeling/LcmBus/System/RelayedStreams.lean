import LcmBus.System.RelayedLinks

/-!
# The two streams of each connection

Of a system of clients around a relay, what each side has made of what came to it.

* `Taken`: the relay found the first requests of what it read of a client, published the publishes and
  acted on the others; `Taken.step` for a step of the relay;
* `Hears`: a client found the first frames of what it read of the relay, and its handler heard a part
  of them; `Hears.turn` for a turn of its reader.
-/

namespace LcmBus

open Incremental Outbox Relay

namespace Relay.Link

variable {l t : Link}

/-- A move puts bytes behind those on the wire, or none. -/
theorem wire_move {m : Move} (hmove : l.move m = some t) : l.wire <+: t.wire := by
  have hsame : t.wire = l.wire → l.wire <+: t.wire := fun h => h ▸ List.prefix_rfl
  cases m with
  | shut | hangUp =>
    cases hmove
    exact List.prefix_rfl
  | own running act =>
    change Link.step running l act = some t at hmove
    cases act with
    | call act =>
      simp only [Link.step] at hmove
      split_ifs at hmove
      obtain ⟨outbox, -, rfl⟩ := Option.map_eq_some_iff.1 hmove
      exact List.prefix_rfl
    | look | check =>
      simp only [Link.step] at hmove
      split at hmove <;> cases hmove
      exact List.prefix_rfl
    | take | finish | exitShut | exitAbandon =>
      simp only [Link.step] at hmove
      split at hmove
      · obtain ⟨outbox, -, rfl⟩ := Option.map_eq_some_iff.1 hmove
        exact List.prefix_rfl
      · cases hmove
    | write wrote stalled =>
      obtain ⟨sent, _, _, -, rfl, -⟩ := write_wire hmove
      exact List.prefix_append _ _
    | panic =>
      simp only [Link.step] at hmove
      split_ifs at hmove
      cases hmove
      exact List.prefix_rfl

/-- What is on the wire is the first of the frames that the writer took. -/
theorem Sound.wire_isPrefix {past : Past} (h : Sound l past) :
    l.wire <+: ((took past).map Prod.snd).flatten := by
  obtain ⟨further, part, honWire⟩ := h.onWire
  obtain ⟨-, hpart, -⟩ := honWire.further_cases
  rw [honWire.wire_eq, honWire.took_eq, List.map_append, List.flatten_append]
  exact (List.prefix_append_right_inj _).2 hpart

/-- And those of a lane are the first of what was let into it. -/
theorem Sound.took_isPrefix {past : Past} (h : Sound l past) (lane : Lane) :
    ofLane lane (took past) <+: came lane past := by
  obtain ⟨thrown, -, hlines⟩ := (h.lined lane).lines
  rw [hlines, List.append_assoc]
  exact List.prefix_append _ _

/-- A writer that waits for a frame, at an outbox that is open and holds none. -/
structure Drained (l : Link) : Prop where
  waits : l.loop = .top ∨ l.loop = .taking
  isOpen : l.outbox.queue.isOpen = true
  messages : l.outbox.queue.messages = []
  control : l.outbox.queue.control = []

instance (l : Link) : Decidable (Drained l) :=
  decidable_of_iff ((l.loop = .top ∨ l.loop = .taking) ∧ l.outbox.queue.isOpen = true ∧
      l.outbox.queue.messages = [] ∧ l.outbox.queue.control = [])
    ⟨fun ⟨hwaits, hopen, hmessages, hcontrol⟩ => ⟨hwaits, hopen, hmessages, hcontrol⟩,
      fun h => ⟨h.waits, h.isOpen, h.messages, h.control⟩⟩

/-- All that was let in is on the wire. -/
theorem Sound.drained {past : Past} (h : Sound l past) (hdrained : Drained l) :
    l.wire = ((took past).map Prod.snd).flatten ∧
      ∀ lane, ofLane lane (took past) = came lane past := by
  constructor
  · obtain ⟨further, part, honWire⟩ := h.onWire
    have hstage := honWire.stage
    have hnone : further = [] ∧ part = [] := by
      rcases hdrained.waits with hloop | hloop <;> rw [hloop] at hstage <;> exact ⟨hstage.1, hstage.2.1⟩
    rw [honWire.wire_eq, honWire.took_eq, hnone.1, hnone.2, List.append_nil, List.append_nil]
  · intro lane
    obtain ⟨thrown, hthrown, hlines⟩ := (h.lined lane).lines
    have hframes : l.outbox.queue.frames lane = [] := by
      cases lane
      · exact hdrained.messages
      · exact hdrained.control
    rw [hlines, hthrown hdrained.isOpen, hframes, List.append_nil, List.append_nil]

end Relay.Link

namespace Relayed

variable {Regex : Type} {engine : Engine Regex}

/-! ### What the relay takes -/

section Taken

open Dispatch (Job Publisher arrived arrives published publishes)

/-- The frame of a publish, in what is found in a stream. -/
def publishOf : Option Tcpq.Request → Option Bytes
  | some (.publish frame) => (Tcpq.publish frame).toOption
  | _ => none

/-- The rules a relay makes of what it found. -/
def rulesOf (engine : Engine Regex) (found : List (Option Tcpq.Request)) : Subscriptions Regex :=
  (fold (Serve.onRequest engine) id ⟨[], .new, []⟩ found).subscriptions

/-- The rules behind a request are of those before it. -/
theorem subscriptions_onRequest (acted : Serve.Acted Regex) (request : Tcpq.Request) :
    (Serve.onRequest engine acted request).subscriptions =
      (Serve.onRequest engine ⟨[], acted.subscriptions, []⟩ request).subscriptions := by
  cases request with
  | subscribe | unsubscribe => rfl
  | publish frame =>
    unfold Serve.onRequest
    dsimp only
    split <;> rfl

theorem rulesOf_concat (found : List (Option Tcpq.Request)) (item : Option Tcpq.Request) :
    rulesOf engine (found ++ [item]) = item.elim (rulesOf engine found) fun request =>
      (Serve.onRequest engine ⟨[], rulesOf engine found, []⟩ request).subscriptions := by
  unfold rulesOf fold
  rw [List.foldl_append]
  cases item with
  | none => rfl
  | some request => exact subscriptions_onRequest _ request

/-- Of what came from a client the relay found the first requests: it published the publishes of them,
in their order, and holds the rules that the others come to. -/
def Taken (engine : Engine Regex) (id : ℕ) (s : Dispatch.State Regex)
    (past : List (Dispatch.State Regex × Dispatch.Act × Dispatch.State Regex)) : Prop :=
  ∃ found, Leaves Tcpq.requestPlan.run (arrived id past) found (s.incoming id) ∧
    (published (.peer id) past).map Job.encoded = found.filterMap publishOf ∧
    s.subscriptions id = rulesOf engine found

theorem taken_start (id : ℕ) : Taken engine id (Dispatch.start : Dispatch.State Regex) [] :=
  ⟨[], .nil, rfl, rfl⟩

variable {s t : Dispatch.State Regex} {act : Dispatch.Act}
  {past : List (Dispatch.State Regex × Dispatch.Act × Dispatch.State Regex)} {id : ℕ}

namespace Taken

/-- A step that takes nothing of the client. -/
theorem same (h : Taken engine id s past) (hincoming : t.incoming id = s.incoming id ++ arrives id act)
    (hsubscriptions : t.subscriptions id = s.subscriptions id)
    (hpublishes : publishes (.peer id) s act t = []) : Taken engine id t (past ++ [(s, act, t)]) := by
  obtain ⟨found, hleaves, hpublished, hrules⟩ := h
  refine ⟨found, ?_, ?_, hsubscriptions.trans hrules⟩
  · rw [Dispatch.arrived_concat, hincoming]
    exact hleaves.append _
  · rw [Dispatch.published_concat, hpublishes, List.append_nil, hpublished]

/-- A request is taken off the front of what came. -/
theorem take (h : Taken engine id s past) {item : Option Tcpq.Request} {used : ℕ}
    (hrun : Tcpq.requestPlan.run (s.incoming id) = .take item used)
    (hincoming : t.incoming id = (s.incoming id).drop used)
    (hsubscriptions : t.subscriptions id = item.elim (s.subscriptions id) fun request =>
      (Serve.onRequest engine ⟨[], s.subscriptions id, []⟩ request).subscriptions)
    (hpublishes : (publishes (.peer id) s (.request id) t).map Job.encoded =
      (publishOf item).toList) : Taken engine id t (past ++ [(s, .request id, t)]) := by
  obtain ⟨found, hleaves, hpublished, hrules⟩ := h
  refine ⟨found ++ [item], ?_, ?_, ?_⟩
  · rw [Dispatch.arrived_concat, hincoming]
    simpa [arrives] using hleaves.take Tcpq.fits_requestPlan.stable hrun
  · rw [Dispatch.published_concat, List.map_append, hpublished, hpublishes, List.filterMap_append]
    cases hitem : publishOf item <;> simp [hitem]
  · rw [hsubscriptions, hrules, rulesOf_concat]

theorem step (h : Taken engine id s past) (hstep : Dispatch.step engine s act = some t) :
    Taken engine id t (past ++ [(s, act, t)]) := by
  have hbegun := Dispatch.begun_step hstep (.peer id)
  have hnone : t.begun (.peer id) = s.begun (.peer id) → publishes (.peer id) s act t = [] :=
    fun hsame => List.eq_nil_of_length_eq_zero (by omega)
  have hstill : arrives id act = [] → t.incoming = s.incoming → t.subscriptions = s.subscriptions →
      t.begun = s.begun → Taken engine id t (past ++ [(s, act, t)]) :=
    fun harrives hincoming hsubscriptions hsame =>
      h.same (by rw [harrives, List.append_nil, hincoming]) (by rw [hsubscriptions])
        (hnone (by rw [hsame]))
  cases act with
  | arrive peer bytes =>
    simp only [Dispatch.step] at hstep
    split_ifs at hstep
    cases hstep
    refine h.same ?_ rfl (hnone rfl)
    rcases eq_or_ne peer id with rfl | hne
    · simp [arrives]
    · simp [arrives, hne, Function.update_of_ne hne.symm]
  | request peer =>
    simp only [Dispatch.step] at hstep
    split_ifs at hstep with hreading
    have hrun := Tcpq.answer_decodeRequest (s.incoming peer)
    rcases eq_or_ne peer id with rfl | hne
    · split at hstep <;> cases hstep
      · rename_i request used hdecode
        rw [hdecode] at hrun
        cases request with
        | publish frame =>
          obtain ⟨-, hencoded⟩ := Tcpq.publish_of_decodeRequest hdecode
          have hbegins : Dispatch.State.request engine (s.consume peer used) peer (.publish frame) =
              (s.consume peer used).begins (.peer peer) frame ((s.incoming peer).take used) := by
            simp only [Dispatch.State.request, hencoded]
          rw [hbegins]
          refine h.take hrun.symm (Function.update_self ..) ?_ ?_
          · simp only [Option.elim_some, Serve.onRequest, hencoded]
            rfl
          · rw [publishes, if_pos ⟨rfl, hreading.2⟩, Dispatch.State.begins, Dispatch.places_goes,
              publishOf, hencoded]
            rfl
        | subscribe pattern | unsubscribe pattern =>
          refine h.take hrun.symm (Function.update_self ..) (Function.update_self ..) ?_
          rw [hnone rfl]
          rfl
      · rename_i used hdecode
        rw [hdecode] at hrun
        refine h.take hrun.symm (Function.update_self ..) rfl ?_
        rw [hnone rfl]
        rfl
    · have hother : publishes (.peer id) s (.request peer) t = [] := by
        rw [publishes, if_neg]
        rintro ⟨hp, -⟩
        cases hp
        exact hne rfl
      have hincoming : ∀ used, (s.consume peer used).incoming id = s.incoming id := fun used =>
        Function.update_of_ne hne.symm _ _
      have hsame : t.incoming id = s.incoming id → t.subscriptions id = s.subscriptions id →
          Taken engine id t (past ++ [(s, .request peer, t)]) := fun hincoming hsubscriptions =>
        h.same (by rw [hincoming]; simp [arrives]) hsubscriptions hother
      split at hstep <;> cases hstep
      · rename_i request used hdecode
        cases request with
        | publish frame =>
          obtain ⟨-, hencoded⟩ := Tcpq.publish_of_decodeRequest hdecode
          simp only [Dispatch.State.request, hencoded] at hsame ⊢
          exact hsame (hincoming used) rfl
        | subscribe | unsubscribe =>
          exact hsame (hincoming used) (Function.update_of_ne hne.symm _ _)
      · exact hsame (hincoming _) rfl
  | publish name frame =>
    simp only [Dispatch.step] at hstep
    split at hstep <;> cases hstep
    · refine h.same (by simp [arrives]; rfl) rfl (if_neg ?_)
      rintro ⟨hp, -⟩
      cases hp
    · exact hstill rfl rfl rfl rfl
  | snapshot | visit =>
    simp only [Dispatch.step] at hstep
    split at hstep <;> cases hstep <;> exact hstill rfl rfl rfl rfl
  | put | wake =>
    simp only [Dispatch.step] at hstep
    split at hstep
    · obtain ⟨relay, -, rfl⟩ := Option.map_eq_some_iff.1 hstep
      exact hstill rfl rfl rfl rfl
    · cases hstep
  | relay act =>
    simp only [Dispatch.step] at hstep
    split_ifs at hstep
    obtain ⟨relay, -, rfl⟩ := Option.map_eq_some_iff.1 hstep
    exact hstill rfl rfl rfl rfl

end Taken

end Taken

/-! ### What a client hears -/

/-- The frames on one channel. -/
def onChannel (channel : String) (frames : List Frame) : List Frame :=
  frames.filter fun frame => frame.channel = channel

theorem onChannel_append (channel : String) (before behind : List Frame) :
    onChannel channel (before ++ behind) = onChannel channel before ++ onChannel channel behind :=
  List.filter_append ..

/-- What its handler heard of the frames a client found: each of them is counted, those that it was
given are a part of them, and they are all of those on a channel that its rules selected throughout. -/
structure Heeds (always : String → Prop) (heard : Heard) (found : List (Option Frame)) : Prop where
  received : heard.counters.received = found.length
  delivered : heard.counters.delivered = heard.delivered.length
  counted : heard.counters.received = heard.counters.delivered + heard.counters.discarded
  part : heard.delivered.Sublist found.reduceOption
  all : ∀ channel, always channel →
    onChannel channel heard.delivered = onChannel channel found.reduceOption

theorem heeds_zero (always : String → Prop) : Heeds always ⟨.zero, []⟩ [] :=
  ⟨rfl, rfl, rfl, List.Sublist.refl _, fun _ _ => rfl⟩

theorem Heeds.concat {always : String → Prop} {heard : Heard} {found : List (Option Frame)}
    (h : Heeds always heard found) (subscriptions : Subscriptions Regex) (item : Option Frame) :
    Heeds (fun channel => always channel ∧ subscriptions.selects engine channel = true)
      (hear (onFrame engine subscriptions) onSkip heard item) (found ++ [item]) := by
  obtain ⟨hreceived, hdelivered, hcounted, hpart, hall⟩ := h
  have hlength : (found ++ [item]).length = found.length + 1 := by simp
  cases item with
  | none =>
    refine ⟨?_, hdelivered, ?_, ?_, fun channel hchannel => ?_⟩
    · rw [hlength, ← hreceived]
      rfl
    · simp only [hear, onSkip]
      omega
    · rw [List.reduceOption_append]
      exact hpart.trans (List.sublist_append_left _ _)
    · rw [List.reduceOption_append, onChannel_append, ← hall channel hchannel.1]
      exact (List.append_nil _).symm
  | some frame =>
    have hreduce : (found ++ [some frame]).reduceOption = found.reduceOption ++ [frame] := by
      simp [List.reduceOption_append]
    unfold hear onFrame
    dsimp only
    split_ifs with hselects
    · refine ⟨by simp [hreceived], by simp [hdelivered], by simp only; omega,
        hreduce ▸ hpart.append (List.Sublist.refl _), fun channel hchannel => ?_⟩
      rw [hreduce, onChannel_append, onChannel_append, hall channel hchannel.1]
    · refine ⟨by simp [hreceived], hdelivered, by simp only; omega,
        hreduce ▸ hpart.trans (List.sublist_append_left _ _), fun channel hchannel => ?_⟩
      have hne : frame.channel ≠ channel := fun heq => hselects (heq ▸ hchannel.2)
      rw [hreduce, onChannel_append, hall channel hchannel.1]
      simp [onChannel, hne]

/-- Fewer channels are selected throughout. -/
theorem Heeds.weaken {always fewer : String → Prop} {heard : Heard} {found : List (Option Frame)}
    (h : Heeds always heard found) (hfewer : ∀ channel, fewer channel → always channel) :
    Heeds fewer heard found :=
  { h with all := fun channel hchannel => h.all channel (hfewer channel hchannel) }

/-- Of the `down` bytes that a reader had of a stream it found the first frames, and heeded them. -/
structure Hears (always : String → Prop) (wire : Bytes) (down : ℕ) (reader : Reading Heard) : Prop where
  down_le : down ≤ wire.length
  ceiling : Tcpq.frameMax ≤ reader.pending.ceiling
  waiting : reader.filling = true → ∃ n, Tcpq.framePlan.run reader.pending.unread = .need n
  heard : ∃ found, Leaves Tcpq.framePlan.run (wire.take down) found reader.pending.unread ∧
    Heeds always reader.heard found

theorem hears_start (always : String → Prop) : Hears always [] 0 (tcpqStart ⟨[], []⟩) :=
  ⟨le_rfl, le_max_left _ _, fun _ => ⟨_, rfl⟩, [], .nil, heeds_zero always⟩

namespace Hears

variable {always fewer : String → Prop} {wire more : Bytes} {down : ℕ} {reader next : Reading Heard}

/-- Fewer channels are selected throughout. -/
theorem weaken (h : Hears always wire down reader) (hfewer : ∀ channel, fewer channel → always channel) :
    Hears fewer wire down reader := by
  obtain ⟨found, hleaves, hheeds⟩ := h.heard
  exact { h with heard := ⟨found, hleaves, hheeds.weaken hfewer⟩ }

/-- The relay sends more. -/
theorem mono (h : Hears always wire down reader) (hmore : wire <+: more) :
    Hears always more down reader := by
  obtain ⟨rest, rfl⟩ := hmore
  refine ⟨h.down_le.trans (by simp), h.ceiling, h.waiting, ?_⟩
  rw [List.take_append_of_le_length h.down_le]
  exact h.heard

/-- A turn that finds nothing. -/
theorem same (h : Hears always wire down reader) (hunread : next.pending.unread = reader.pending.unread)
    (hceiling : next.pending.ceiling = reader.pending.ceiling) (hheard : next.heard = reader.heard)
    (hwaiting : next.filling = true → ∃ n, Tcpq.framePlan.run reader.pending.unread = .need n) :
    Hears always wire down next := by
  refine ⟨h.down_le, hceiling ▸ h.ceiling, ?_, ?_⟩
  · rwa [hunread]
  · rw [hunread, hheard]
    exact h.heard

/-- A turn that takes an item off what is unread. -/
theorem consume (h : Hears always wire down reader) (engine : Engine Regex)
    (subscriptions : Subscriptions Regex) {item : Option Frame} {used : ℕ}
    (hrun : Tcpq.framePlan.run reader.pending.unread = .take item used)
    (hpending : next.pending = reader.pending.consume used)
    (hfilling : next.filling = false)
    (hheard : next.heard = hear (onFrame engine subscriptions) onSkip reader.heard item) :
    Hears (fun channel => always channel ∧ subscriptions.selects engine channel = true) wire down next := by
  obtain ⟨found, hleaves, hheeds⟩ := h.heard
  refine ⟨h.down_le, ?_, by simp [hfilling], found ++ [item], ?_, ?_⟩
  · rw [hpending, ReadBuffer.ceiling_consume]
    exact h.ceiling
  · rw [hpending, ReadBuffer.unread_consume]
    exact hleaves.take Tcpq.fits_framePlan.stable hrun
  · rw [hheard]
    exact hheeds.concat _ _

/-- A turn that reads the next bytes of the stream. -/
theorem fill (h : Hears always wire down reader) (k : ℕ)
    (hunread : next.pending.unread = reader.pending.unread ++ (wire.drop down).take k)
    (hceiling : next.pending.ceiling = reader.pending.ceiling) (hheard : next.heard = reader.heard)
    (hwaiting : next.filling = true → ∃ n, Tcpq.framePlan.run next.pending.unread = .need n) :
    Hears always wire (down + ((wire.drop down).take k).length) next := by
  have hle := h.down_le
  have htake : wire.take (down + ((wire.drop down).take k).length) =
      wire.take down ++ (wire.drop down).take k := by
    rw [List.take_add, List.length_take, ← List.take_eq_take_min]
  obtain ⟨found, hleaves, hheeds⟩ := h.heard
  refine ⟨?_, hceiling ▸ h.ceiling, hwaiting, found, ?_, hheard ▸ hheeds⟩
  · simp only [List.length_take, List.length_drop]
    omega
  · rw [htake, hunread]
    exact hleaves.append _

/-- **A turn of its reader takes what is next in the stream, or finds nothing.** -/
theorem turn (h : Hears always wire down reader) (engine : Engine Regex)
    (subscriptions : Subscriptions Regex) (cut : Cut) (torn : Option IoError) {ended : Option Stop}
    (hturn : tcpqReader engine subscriptions torn
      { reader with source := ⟨wire.drop down, [cut]⟩ } = (next, ended)) :
    Hears (fun channel => always channel ∧ subscriptions.selects engine channel = true) wire
      (down + ((wire.drop down).length - next.source.rest.length)) next := by
  have hfits := Tcpq.fits_framePlan
  have hfewer : ∀ channel, always channel ∧ subscriptions.selects engine channel = true →
      always channel := fun _ => And.left
  have hstays : next.source.rest = wire.drop down →
      Hears (fun channel => always channel ∧ subscriptions.selects engine channel = true) wire down next →
      Hears (fun channel => always channel ∧ subscriptions.selects engine channel = true) wire
        (down + ((wire.drop down).length - next.source.rest.length)) next :=
    fun hrest hnext => by rwa [hrest, Nat.sub_self, Nat.add_zero]
  unfold tcpqReader readTurn at hturn
  dsimp only at hturn
  cases hfilling : reader.filling with
  | true =>
    obtain ⟨n, hneed⟩ := h.waiting hfilling
    have hroom : reader.pending.unread.length < reader.pending.ceiling :=
      (hfits.stable.need_gt hneed).trans_le ((hfits.need_le hneed).trans h.ceiling)
    rw [hfilling, if_pos rfl] at hturn
    obtain ⟨k, pending, cuts, hfill, -, hunread, hceiling, -, -⟩ |
      ⟨e, pending, cuts, hfill, hunread, hceiling, -, -, -⟩ :=
      ReadBuffer.fillFrom_cases ⟨wire.drop down, [cut]⟩ hroom
    · have hread : (wire.drop down).length - ((wire.drop down).drop k).length =
          ((wire.drop down).take k).length := by
        simp only [List.length_drop, List.length_take]
        omega
      rw [hfill] at hturn
      cases hlen : ((wire.drop down).take k).length with
      | zero =>
        have hnil : (wire.drop down).take k = [] := List.length_eq_zero_iff.1 hlen
        rw [hlen] at hturn
        cases hturn
        rw [hread]
        exact (h.weaken hfewer).fill k hunread hceiling rfl fun _ =>
          ⟨n, by rw [hunread, hnil, List.append_nil]; exact hneed⟩
      | succ m =>
        rw [hlen] at hturn
        cases hturn
        rw [hread]
        exact (h.weaken hfewer).fill k hunread hceiling rfl (by simp)
    · rw [hfill] at hturn
      cases hturn
      exact hstays rfl ((h.weaken hfewer).same hunread hceiling rfl fun _ => ⟨n, hneed⟩)
  | false =>
    have hrun := Tcpq.answer_decode reader.pending.unread
    rw [hfilling, if_neg (by simp)] at hturn
    cases hdecode : Tcpq.decode reader.pending.unread with
    | ok decoded =>
      rw [hdecode] at hrun hturn
      cases decoded with
      | item frame used | skip used =>
        cases hturn
        exact hstays rfl (h.consume engine subscriptions hrun.symm rfl rfl rfl)
      | need bytes =>
        obtain ⟨pending, hreserve, hunread, hceiling⟩ :=
          reader.pending.reserve_of_le ((hfits.need_le hrun.symm).trans h.ceiling)
        dsimp only at hturn
        rw [hreserve] at hturn
        cases hturn
        exact hstays rfl ((h.weaken hfewer).same hunread hceiling rfl fun _ => ⟨bytes, hrun.symm⟩)
    | error e =>
      rw [hdecode] at hturn
      cases hturn
      exact hstays rfl ((h.weaken hfewer).same rfl rfl rfl (by simp))

end Hears

end Relayed

end LcmBus
