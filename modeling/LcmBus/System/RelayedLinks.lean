import LcmBus.Client.LinkWire
import LcmBus.System.Relayed

/-!
# Both ends of each connection

Of a system of clients around a relay, what each of the two writers of a connection was given.

* `RelayEnd`: the relay puts on a connection the messages it let through to the client, and no control
  frame; `RelayEnd.step` for a step of the relay;
* `ClientEnd`: a client puts on it the messages that it was asked to publish, and its control frames
  are what its operations told of its subscriptions; `ClientEnd.step` for a step of its threads.
-/

namespace LcmBus

open Outbox Relay

/-! ### The operations of a client, at its outbox -/

namespace Rules

variable {Regex : Type} {engine : Engine Regex} {opening : Multiset String} {s t : State Regex}
  {told : List Tell} {act : Act}

/-- An operation is at the outbox with a control frame, or not at all. -/
theorem Agrees.outbox_step (h : Agrees opening s told) (hact : ∀ other, act ≠ .outbox other)
    (hstep : Rules.step engine s act = some t) : t.outbox = s.outbox ∨
      ∃ name frame late call, call.ofCaller = true ∧ Outbox.step s.outbox call = some t.outbox ∧
        t.outbox = s.outbox.turn name (.control frame) late := by
  have hput : ∀ {name : ℕ} {change : Change Regex} {late : Bool} {call : Outbox.Act},
      call.ofCaller = true → (∀ outbox, Outbox.step s.outbox call = some outbox →
        outbox = s.outbox.turn name (.control change.frame) late) →
      s.put name change late call = some t → ∃ name frame late call, call.ofCaller = true ∧
        Outbox.step s.outbox call = some t.outbox ∧
        t.outbox = s.outbox.turn name (.control frame) late := by
    intro name change late call hcaller hcall hput
    obtain ⟨outbox, houtbox, rfl⟩ := Option.map_eq_some_iff.1 hput
    refine ⟨name, change.frame, late, call, hcaller, ?_⟩
    split <;> exact ⟨houtbox, hcall outbox houtbox⟩
  cases act with
  | outbox other => exact absurd rfl (hact other)
  | unwritable =>
    cases hstep
    exact .inl rfl
  | subscribeName name channel | subscribe name pattern | unsubscribe name subscription =>
    cases hop : s.ops name <;> rw [Rules.step, hop] at hstep <;> cases hstep
    left
    unfold State.enter
    split_ifs <;> [split; skip] <;> rfl
  | lock name =>
    simp only [Rules.step] at hstep
    split at hstep <;> cases hstep
    exact .inl rfl
  | next name late =>
    obtain ⟨phase, hphase, hnext⟩ := Option.bind_eq_some_iff.1 hstep
    cases phase with
    | waits | answered => cases hnext
    | looks subscription =>
      simp only [State.next] at hnext
      split at hnext <;> cases hnext <;> exact .inl rfl
    | asks change | tells change =>
      simp only [State.next] at hnext
      split_ifs at hnext <;> cases hnext <;> exact .inl rfl
    | puts change => exact .inr (hput rfl (fun _ hcall => turn_of_putControl hcall) hnext)
    | queues change =>
      exact .inr (hput rfl (fun _ hcall => turn_of_wake (h.queued name change hphase) hcall) hnext)
    | told change =>
      cases hnext
      exact .inl rfl

/-- What an operation knows of the outbox is of the calls of `put_control`. -/
theorem Agrees.congr (h : Agrees opening s told) (hops : t.ops = s.ops)
    (hchanging : t.changing = s.changing) (hsubscriptions : t.subscriptions = s.subscriptions)
    (hcalls : ∀ name frame, s.outbox.calls name = some (.control frame) →
      t.outbox.calls name = some (.control frame)) : Agrees opening t told where
  holder := by rw [hops, hchanging]; exact h.holder
  sound := by rw [hops, hsubscriptions]; exact h.sound
  wanted := by rw [hops]; exact h.wanted
  queued := by
    rw [hops]
    exact fun name change hphase => hcalls name _ (h.queued name change hphase)
  settled := by rw [hops, hsubscriptions]; exact h.settled
  pending := by rw [hops, hsubscriptions]; exact h.pending
  balance := h.balance

end Rules

namespace Outbox

variable {s t : State} {name other : ℕ} {call found : Call} {late : Bool}

/-- Behind a turn a call waits that waited before it, or the one whose turn it was. -/
theorem calls_turn (h : (s.turn name call late).calls other = some found) :
    s.calls other = some found ∨ found = call := by
  have h : Function.update s.calls name (if (call.turn s.queue late).1 = .waits then some call
    else none) other = some found := h
  rcases eq_or_ne other name with rfl | hne
  · rw [Function.update_self] at h
    split_ifs at h
    exact .inr (Option.some.inj h).symm
  · rw [Function.update_of_ne hne] at h
    exact .inl h

/-- A turn of a call that is no publish lets no message in. -/
theorem entered_message_turn (h : call.lane ≠ some .message) :
    entered .message s (s.turn name call late) = [] := by
  rw [entered_turn, if_neg fun hturn => h hturn.2]

/-- A turn lets in no frame but the one of its call. -/
theorem mem_entered_turn {lane : Lane} {frame : Bytes}
    (h : frame ∈ entered lane s (s.turn name call late)) : frame ∈ call.frames := by
  rw [entered_turn] at h
  split_ifs at h
  · exact h
  · cases h

end Outbox

namespace Relayed

variable {Regex : Type} {engine : Engine Regex}

/-! ### The end of the relay -/

section Relay

open Dispatch (Kept Waiting outboxOf)

theorem outboxOf_eq (relay : Serve.State) (id : ℕ) :
    outboxOf relay id = (linkOf relay id).outbox := by
  unfold outboxOf linkOf
  cases relay.known id <;> rfl

theorem linkOf_modify {u t : Serve.State} {id other : ℕ}
    {change : Serve.Peer → Option Serve.Peer} (hmodify : u.modify other change = some t)
    (hchange : ∀ p q, change p = some q → q.link = p.link ∨ ∃ m, p.link.move m = some q.link) :
    linkOf t id = linkOf u id ∨ ∃ m, (linkOf u id).move m = some (linkOf t id) := by
  obtain ⟨p, q, hp, hq, rfl⟩ := Serve.State.modify_eq_some.1 hmodify
  rcases eq_or_ne id other with rfl | hne
  · simpa [linkOf, hp] using hchange p q hq
  · exact .inl (by simp [linkOf, Function.update_of_ne hne])

/-- **No thread of a relay does more to a connection than one move of its link.** -/
theorem linkOf_step {s t : Serve.State} {act : Serve.Act} (h : Serve.Listed s)
    (hstep : Serve.step s act = some t) (id : ℕ) :
    linkOf t id = linkOf s id ∨ ∃ m, (linkOf s id).move m = some (linkOf t id) := by
  have hsame : ∀ {v : Serve.State}, v.known = s.known → linkOf v id = linkOf s id := fun hv => by
    rw [linkOf, linkOf, hv]
  have hmodify : ∀ {v : Serve.State} {other change}, v.modify other change = some t →
      v.known = s.known → (∀ p q, change p = some q → q.link = p.link ∨
        ∃ m, p.link.move m = some q.link) →
      linkOf t id = linkOf s id ∨ ∃ m, (linkOf s id).move m = some (linkOf t id) :=
    fun {v other change} hmodify hv hchange => by
      rw [← hsame hv]
      exact linkOf_modify hmodify hchange
  have hself : ∀ {change : Serve.Peer → Serve.Peer}, (∀ p, (change p).link = p.link) →
      ∀ p q, some (change p) = some q → q.link = p.link ∨ ∃ m, p.link.move m = some q.link := by
    rintro change hchange p q ⟨⟩
    exact .inl (hchange p)
  have hreader : ∀ {start : Serve.Reader} {change : Serve.Peer → Serve.Peer},
      (∀ p, (change p).link = p.link ∨ ∃ m, p.link.move m = some (change p).link) →
      ∀ p q : Serve.Peer, p.readerStep start change = some q → q.link = p.link ∨
        ∃ m, p.link.move m = some q.link := by
    intro start change hchange p q hq
    obtain ⟨-, rfl⟩ := Serve.Peer.readerStep_eq_some.1 hq
    exact hchange p
  cases act with
  | poll | nothing | listenerGone | fail | stop | takePeers =>
    simp only [Serve.step] at hstep
    first
    | split at hstep <;> cases hstep <;> exact .inl (hsame rfl)
    | cases hstep; exact .inl (hsame rfl)
  | accept =>
    simp only [Serve.step] at hstep
    split at hstep <;> cases hstep
    left
    rcases eq_or_ne id s.nextId with rfl | hne
    · have hnone : s.known s.nextId = none := by
        rcases hknown : s.known s.nextId with _ | p
        · rfl
        · exact absurd (h.fresh _ p hknown) (lt_irrefl _)
      simp [linkOf, hnone, Serve.Peer.new]
    · simp [linkOf, Function.update_of_ne hne]
  | spawnWriter | spawnReader | push | finish =>
    simp only [Serve.step] at hstep
    split at hstep
    · exact hmodify hstep rfl (hself fun _ => rfl)
    · cases hstep
  | peer other a =>
    refine hmodify hstep rfl fun p q hq => .inr ?_
    obtain ⟨-, link, hlink, rfl⟩ := Serve.Peer.linkStep_eq_some.1 hq
    exact ⟨.own s.running a, hlink⟩
  | readerEnds other | readerPanics other =>
    exact hmodify hstep rfl (hreader fun _ => .inl rfl)
  | drop other =>
    simp only [Serve.step] at hstep
    split_ifs at hstep <;> exact hmodify hstep rfl (hreader fun _ => .inl rfl)
  | dropShut other => exact hmodify hstep rfl (hreader fun _ => .inr ⟨.shut, rfl⟩)
  | dropHangUp other => exact hmodify hstep rfl (hreader fun _ => .inr ⟨.hangUp, rfl⟩)
  | shutPeer other =>
    simp only [Serve.step] at hstep
    split_ifs at hstep
    refine hmodify hstep rfl ?_
    rintro p q ⟨⟩
    exact .inr ⟨.shut, rfl⟩
  | shutHangUp other =>
    simp only [Serve.step] at hstep
    split_ifs at hstep
    refine hmodify hstep rfl ?_
    rintro p q ⟨⟩
    exact .inr ⟨.hangUp, rfl⟩

variable {s t : Dispatch.State Regex} {act : Dispatch.Act}
  {past : List (Dispatch.State Regex × Dispatch.Act × Dispatch.State Regex)}

/-- A step of the fan-out is one of the relay's threads, of which none calls `put_control`, or leaves
its connections as they are. -/
theorem relay_step (hwaiting : Waiting s) (hstep : Dispatch.step engine s act = some t) :
    t.relay = s.relay ∨ ∃ a, Serve.step s.relay a = some t.relay ∧
      ∀ id call, a = .peer id (.call call) → Rules.others (outboxOf s.relay id) call = true := by
  cases act with
  | arrive id bytes =>
    simp only [Dispatch.step] at hstep
    split_ifs at hstep
    cases hstep
    exact .inl rfl
  | request id =>
    simp only [Dispatch.step] at hstep
    split_ifs at hstep
    split at hstep <;> cases hstep
    · rename_i request used hdecode
      cases request with
      | publish frame =>
        simp only [Dispatch.State.request]
        split <;> exact .inl rfl
      | subscribe | unsubscribe => exact .inl rfl
    · exact .inl rfl
  | publish | snapshot | visit =>
    simp only [Dispatch.step] at hstep
    split at hstep <;> cases hstep <;> exact .inl rfl
  | put p call late =>
    simp only [Dispatch.step] at hstep
    split at hstep
    · obtain ⟨relay, hrelay, rfl⟩ := Option.map_eq_some_iff.1 hstep
      refine .inr ⟨_, hrelay, ?_⟩
      rintro _ _ ⟨⟩
      rfl
    · cases hstep
  | wake p late =>
    simp only [Dispatch.step] at hstep
    split at hstep
    · rename_i job id rest call hplace
      obtain ⟨relay, hrelay, rfl⟩ := Option.map_eq_some_iff.1 hstep
      obtain ⟨ticket, hwaits⟩ := hwaiting _ _ _ _ _ hplace
      refine .inr ⟨_, hrelay, ?_⟩
      rintro _ _ ⟨⟩
      simp [Rules.others, hwaits]
    · cases hstep
  | relay act =>
    simp only [Dispatch.step] at hstep
    split_ifs at hstep with hallows
    obtain ⟨relay, hrelay, rfl⟩ := Option.map_eq_some_iff.1 hstep
    refine .inr ⟨_, hrelay, ?_⟩
    rintro id call rfl
    cases hallows

/-- A relay lets no frame into the control lane of a client. -/
theorem control_step (hlisted : Serve.Listed s.relay) (hwaiting : Waiting s)
    (hstep : Dispatch.step engine s act = some t) (id : ℕ) :
    entered .control (outboxOf s.relay id) (outboxOf t.relay id) = [] := by
  rcases relay_step hwaiting hstep with hrelay | ⟨a, hrelay, hothers⟩
  · rw [hrelay]
    exact (Quiet.refl _).2 .control
  · by_cases hcall : ∃ other call, a = .peer other (.call call)
    · obtain ⟨other, call, rfl⟩ := hcall
      obtain ⟨houtbox, hsame⟩ := Serve.call_step hrelay
      rcases eq_or_ne id other with rfl | hne
      · exact (Rules.others_step (hothers id call rfl) houtbox).1
      · rw [hsame id hne]
        exact (Quiet.refl _).2 .control
    · have hnot : ∀ other call, a ≠ .peer other (.call call) := fun other call heq =>
        hcall ⟨other, call, heq⟩
      exact (Serve.quiet_step hlisted hnot hrelay id).2 .control

/-- What a step lets into the messages for a client is of the publishes it lets through. -/
theorem message_step (h : Kept engine s past) (hstep : Dispatch.step engine s act = some t) (id : ℕ) :
    entered .message (outboxOf s.relay id) (outboxOf t.relay id) =
      (lets id s act t).map fun entry => entry.2.encoded := by
  unfold lets
  cases hp : act.publisher with
  | none => simpa using ((Dispatch.other_step h.listed hp hstep).2.2 id).2 .message
  | some p =>
    have hframes := h.admits_step hstep p id
    have hadmits : (Dispatch.admits p id s act t).map Prod.snd =
        entered .message (outboxOf s.relay id) (outboxOf t.relay id) := by
      obtain ⟨-, ⟨hrelay, -⟩ | ⟨job, peer, rest, call, hturns⟩⟩ :=
        Dispatch.own_step h.waiting hp hstep
      · have hentered := (Quiet.refl (outboxOf s.relay id)).2 .message
        simp [Dispatch.admits, hp, hrelay, hentered]
      · simp [Dispatch.admits, hp, hturns.place.1, Function.comp_def]
    rw [← hadmits, Option.toList_some, List.flatMap_singleton, List.map_map]
    exact List.map_congr_left fun entry hentry => (hframes entry hentry).1

/-- The relay's end of a connection: its outbox was given the messages that the relay let through to
the client, and no control frame. -/
def RelayEnd (id : ℕ) (s : Dispatch.State Regex)
    (past : List (Dispatch.State Regex × Dispatch.Act × Dispatch.State Regex)) : Prop :=
  ∃ linkPast, Link.Sound (linkOf s.relay id) linkPast ∧ Link.came .control linkPast = [] ∧
    Link.came .message linkPast = (through id past).map fun entry => entry.2.encoded

theorem relayEnd_start (id : ℕ) : RelayEnd id (Dispatch.start : Dispatch.State Regex) [] :=
  ⟨[], Link.sound_new, rfl, rfl⟩

theorem RelayEnd.step {id : ℕ} (h : RelayEnd id s past) (hkept : Kept engine s past)
    (hstep : Dispatch.step engine s act = some t) : RelayEnd id t (past ++ [(s, act, t)]) := by
  obtain ⟨linkPast, hsound, hcontrol, hmessage⟩ := h
  have hentered := message_step hkept hstep id
  have hnone := control_step hkept.listed hkept.waiting hstep id
  rw [outboxOf_eq, outboxOf_eq] at hentered hnone
  have hthrough : (through id (past ++ [(s, act, t)])).map (fun entry => entry.2.encoded) =
      Link.came .message linkPast ++
        entered .message (linkOf s.relay id).outbox (linkOf t.relay id).outbox := by
    rw [through_append, List.map_append, hmessage, hentered]
    simp [through]
  have hsame : linkOf t.relay id = linkOf s.relay id → RelayEnd id t (past ++ [(s, act, t)]) :=
    fun hlink => by
      rw [hlink, (Quiet.refl _).2 .message, List.append_nil] at hthrough
      exact ⟨linkPast, hlink ▸ hsound, hcontrol, hthrough.symm⟩
  rcases relay_step hkept.waiting hstep with hrelay | ⟨a, hrelay, -⟩
  · exact hsame (by rw [hrelay])
  · rcases linkOf_step hkept.listed hrelay id with hlink | ⟨m, hlink⟩
    · exact hsame hlink
    · refine ⟨_, hsound.move hlink, ?_, ?_⟩
      · rw [Link.came_concat, hcontrol, hnone, List.append_nil]
      · rw [Link.came_concat, hthrough]

end Relay

/-! ### The end of a client -/

namespace Client

variable {c d : Client Regex} {move : Move}

/-- The frame of a message that was asked for. -/
def Encodes (asked : List Frame) (bytes : Bytes) : Prop :=
  ∃ frame ∈ asked, Tcpq.publish frame = .ok bytes

theorem Encodes.mono {asked more : List Frame} {bytes : Bytes} (h : Encodes asked bytes) :
    Encodes (asked ++ more) bytes := by
  obtain ⟨frame, hmem, hframe⟩ := h
  exact ⟨frame, List.mem_append_left _ hmem, hframe⟩

/-- The publishes that wait in an outbox were asked for. -/
def Waits (asked : List Frame) (s : Outbox.State) : Prop :=
  ∀ name ticket bytes, s.calls name = some (.message ticket bytes) → Encodes asked bytes

theorem Waits.quiet {asked : List Frame} {s t : Outbox.State} (h : Waits asked s) (hquiet : Quiet s t)
    (more : List Frame) : Waits (asked ++ more) t ∧
      ∀ bytes ∈ entered .message s t, Encodes (asked ++ more) bytes := by
  refine ⟨fun name ticket bytes hcall => ?_, fun bytes hbytes => ?_⟩
  · rw [hquiet.1] at hcall
    exact (h name ticket bytes hcall).mono
  · rw [hquiet.2] at hbytes
    cases hbytes

/-- A turn of a call whose frame was asked for, where it is a publish. -/
theorem Waits.turn {asked : List Frame} {s : Outbox.State} (h : Waits asked s) (name : ℕ)
    (call : Call) (late : Bool)
    (hcall : ∀ ticket bytes, call = .message ticket bytes → Encodes asked bytes) :
    Waits asked (s.turn name call late) ∧
      ∀ bytes ∈ entered .message s (s.turn name call late), Encodes asked bytes := by
  refine ⟨fun other ticket bytes hother => ?_, fun bytes hbytes => ?_⟩
  · rcases calls_turn hother with hother | hother
    · exact h other ticket bytes hother
    · exact hcall ticket bytes hother.symm
  · cases call with
    | message ticket frame =>
      obtain rfl := List.mem_singleton.1 (mem_entered_turn hbytes)
      exact hcall ticket bytes rfl
    | control | flush =>
      rw [entered_message_turn (by simp [Call.lane])] at hbytes
      cases hbytes

theorem dials_call {act : Outbox.Act} (hstep : c.dials (.link (.call act)) = some d) :
    ∃ outbox, act.ofCaller = true ∧ Outbox.step c.dial.link.outbox act = some outbox ∧
      d = { c with dial := { c.dial with link := { c.dial.link with outbox } } } := by
  obtain ⟨dial, hdial, rfl⟩ := Option.map_eq_some_iff.1 hstep
  obtain ⟨link, hlink, rfl⟩ := Option.map_eq_some_iff.1 hdial
  simp only [Link.step] at hlink
  split_ifs at hlink with hcaller
  obtain ⟨outbox, houtbox, rfl⟩ := Option.map_eq_some_iff.1 hlink
  exact ⟨outbox, hcaller, houtbox, rfl⟩

/-- The other steps of a connection are quiet at its outbox. -/
theorem dials_quiet {act : Dial.Act} (hact : ∀ call, act ≠ .link (.call call))
    (hstep : c.dials act = some d) : Quiet c.dial.link.outbox d.dial.link.outbox ∧
      d.subscriptions = c.subscriptions ∧ d.changing = c.changing ∧ d.ops = c.ops := by
  obtain ⟨dial, hdial, rfl⟩ := Option.map_eq_some_iff.1 hstep
  refine ⟨?_, rfl, rfl, rfl⟩
  cases act with
  | link act =>
    obtain ⟨link, hlink, rfl⟩ := Option.map_eq_some_iff.1 hdial
    refine Link.quiet_step ?_ hlink
    cases act <;> first | rfl | exact absurd rfl (hact _)
  | readerExit | close =>
    cases hdial
    exact Quiet.refl _
  | closeShut =>
    simp only [Dial.step] at hdial
    split_ifs at hdial
    cases hdial
    exact Link.quiet_shut _
  | closeHangUp =>
    simp only [Dial.step] at hdial
    split_ifs at hdial
    cases hdial
    exact Quiet.refl _

/-- **No thread of a client does more to its connection than one move of the link.** -/
theorem link_step {opening : Multiset String} {told : List Rules.Tell}
    (h : Rules.Agrees opening c.rules told) (hstep : c.step engine move = some d) :
    d.dial.link = c.dial.link ∨ ∃ m, c.dial.link.move m = some d.dial.link := by
  have hcall : ∀ {act : Outbox.Act} {outbox : Outbox.State}, act.ofCaller = true →
      Outbox.step c.dial.link.outbox act = some outbox →
      ∃ m, c.dial.link.move m = some { c.dial.link with outbox } := fun {act outbox} hact houtbox =>
    ⟨.own c.dial.running (.call act), by simp [Link.move, Link.step, hact, houtbox]⟩
  cases move with
  | publish name frame late =>
    simp only [step] at hstep
    split at hstep
    · cases hstep
      exact .inl rfl
    · obtain ⟨outbox, hact, houtbox, rfl⟩ := dials_call hstep
      exact .inr (hcall hact houtbox)
  | call act =>
    have hdials : c.dials (.link (.call act)) = some d := by
      simp only [step] at hstep
      split at hstep
      · split_ifs at hstep
        exact hstep
      · split_ifs at hstep
        exact hstep
      · cases hstep
    obtain ⟨outbox, hact, houtbox, rfl⟩ := dials_call hdials
    exact .inr (hcall hact houtbox)
  | rules act =>
    have hrules : (∀ other, act ≠ .outbox other) ∧
        (Rules.step engine c.rules act).map c.withRules = some d := by
      cases act <;> first | exact ⟨by simp, hstep⟩ | cases hstep
    obtain ⟨r, hr, rfl⟩ := Option.map_eq_some_iff.1 hrules.2
    rcases h.outbox_step hrules.1 hr with hsame | ⟨_, _, _, call, hcaller, houtbox, -⟩
    · exact .inl (by simp only [withRules, hsame]; rfl)
    · exact .inr (hcall hcaller houtbox)
  | dial act =>
    have hdials : c.dials act = some d := by
      simp only [step] at hstep
      split at hstep
      · cases hstep
      · exact hstep
    obtain ⟨dial, hdial, rfl⟩ := Option.map_eq_some_iff.1 hdials
    cases act with
    | link act =>
      obtain ⟨link, hlink, rfl⟩ := Option.map_eq_some_iff.1 hdial
      exact .inr ⟨.own c.dial.running act, hlink⟩
    | readerExit | close =>
      cases hdial
      exact .inl rfl
    | closeShut =>
      simp only [Dial.step] at hdial
      split_ifs at hdial
      cases hdial
      exact .inr ⟨.shut, rfl⟩
    | closeHangUp =>
      simp only [Dial.step] at hdial
      split_ifs at hdial
      cases hdial
      exact .inr ⟨.hangUp, rfl⟩
  | unwritable =>
    cases hstep
    exact .inl rfl

/-- The threads of a client leave its opening subscriptions, its reader and what was read as they
are. -/
theorem rest_step (hstep : c.step engine move = some d) : d.opening = c.opening ∧
    d.reader = c.reader ∧ d.up = c.up ∧ d.down = c.down := by
  have hdials : ∀ {act : Dial.Act}, c.dials act = some d → d.opening = c.opening ∧
      d.reader = c.reader ∧ d.up = c.up ∧ d.down = c.down := fun h => by
    obtain ⟨dial, -, rfl⟩ := Option.map_eq_some_iff.1 h
    exact ⟨rfl, rfl, rfl, rfl⟩
  cases move with
  | publish name frame late =>
    simp only [step] at hstep
    split at hstep
    · cases hstep
      exact ⟨rfl, rfl, rfl, rfl⟩
    · exact hdials hstep
  | call act =>
    simp only [step] at hstep
    split at hstep
    · split_ifs at hstep
      exact hdials hstep
    · split_ifs at hstep
      exact hdials hstep
    · cases hstep
  | rules act =>
    have hrules : (Rules.step engine c.rules act).map c.withRules = some d := by
      cases act <;> first | exact hstep | cases hstep
    obtain ⟨r, -, rfl⟩ := Option.map_eq_some_iff.1 hrules
    exact ⟨rfl, rfl, rfl, rfl⟩
  | dial act =>
    simp only [step] at hstep
    split at hstep
    · cases hstep
    · exact hdials hstep
  | unwritable =>
    cases hstep
    exact ⟨rfl, rfl, rfl, rfl⟩

/-- Control frames whose texts have a length of four bytes. -/
def Tells (frames : List Bytes) : Prop :=
  ∀ frame ∈ frames, ∃ tell : Rules.Tell, Fits32 tell.text ∧ frame = tell.frame

/-- What a step of a client's threads lets into its outbox: of its messages, what it was asked to
publish; and of its control frames, what keeps the relay with its subscriptions. -/
theorem outbox_step {opening : Multiset String} {told : List Rules.Tell} {asked : List Frame}
    (h : Rules.Agrees opening c.rules told) (hwaits : Waits asked c.dial.link.outbox)
    (hstep : c.step engine move = some d) :
    (Waits (asked ++ move.publishes) d.dial.link.outbox ∧
      ∀ bytes ∈ entered .message c.dial.link.outbox d.dial.link.outbox,
        Encodes (asked ++ move.publishes) bytes) ∧
    (∃ more, entered .control c.dial.link.outbox d.dial.link.outbox = more.map Rules.Tell.frame ∧
      Rules.Agrees opening d.rules (told ++ more)) ∧
    (Rules.Fitting c.rules → (∀ pattern, move.pattern = some pattern → Fits32 pattern) →
      Rules.Fitting d.rules ∧ Tells (entered .control c.dial.link.outbox d.dial.link.outbox)) := by
  have hstill : ∀ {e : Client Regex}, e.ops = c.ops → e.changing = c.changing →
      e.subscriptions = c.subscriptions →
      entered .control c.dial.link.outbox e.dial.link.outbox = [] →
      (∀ name frame, c.dial.link.outbox.calls name = some (.control frame) →
        e.dial.link.outbox.calls name = some (.control frame)) →
      (∃ more, entered .control c.dial.link.outbox e.dial.link.outbox = more.map Rules.Tell.frame ∧
        Rules.Agrees opening e.rules (told ++ more)) ∧
      (Rules.Fitting c.rules → (∀ pattern, move.pattern = some pattern → Fits32 pattern) →
        Rules.Fitting e.rules ∧ Tells (entered .control c.dial.link.outbox e.dial.link.outbox)) := by
    intro e hops hchanging hsubscriptions hentered hcalls
    refine ⟨⟨[], hentered, ?_⟩, fun hfitting _ => ⟨⟨?_, ?_⟩, ?_⟩⟩
    · rw [List.append_nil]
      exact h.congr hops hchanging hsubscriptions hcalls
    · show ∀ rule ∈ e.subscriptions.rules, Fits32 rule.forARelay
      rw [hsubscriptions]
      exact hfitting.rules
    · show ∀ name phase, e.ops name = some phase → phase.Fits
      rw [hops]
      exact hfitting.ops
    · rw [hentered]
      exact fun _ h => nomatch h
  have hnothing : ∀ {e : Client Regex}, Quiet c.dial.link.outbox e.dial.link.outbox →
      e.ops = c.ops → e.changing = c.changing → e.subscriptions = c.subscriptions →
      (Waits (asked ++ move.publishes) e.dial.link.outbox ∧
        ∀ bytes ∈ entered .message c.dial.link.outbox e.dial.link.outbox,
          Encodes (asked ++ move.publishes) bytes) ∧
      (∃ more, entered .control c.dial.link.outbox e.dial.link.outbox = more.map Rules.Tell.frame ∧
        Rules.Agrees opening e.rules (told ++ more)) ∧
      (Rules.Fitting c.rules → (∀ pattern, move.pattern = some pattern → Fits32 pattern) →
        Rules.Fitting e.rules ∧ Tells (entered .control c.dial.link.outbox e.dial.link.outbox)) :=
    fun hquiet hops hchanging hsubscriptions =>
      ⟨hwaits.quiet hquiet _, hstill hops hchanging hsubscriptions (hquiet.2 _)
        fun name frame hcall => by rwa [hquiet.1]⟩
  have hnone : move.publishes = [] → asked ++ move.publishes = asked := fun h => by
    rw [h, List.append_nil]
  cases move with
  | publish name frame late =>
    simp only [step] at hstep
    split at hstep
    · cases hstep
      exact hnothing (Quiet.refl _) rfl rfl rfl
    · rename_i bytes hencoded
      obtain ⟨outbox, -, houtbox, rfl⟩ := dials_call hstep
      obtain ⟨hcontrol, hcalls⟩ := Rules.others_step rfl houtbox
      refine ⟨?_, hstill rfl rfl rfl hcontrol hcalls⟩
      simp only [Outbox.step] at houtbox
      split_ifs at houtbox
      cases houtbox
      have hasked : Waits (asked ++ [frame]) { c.dial.link.outbox with
          queue := c.dial.link.outbox.queue.enter.2 } := fun other ticket found hother =>
        (hwaits other ticket found hother).mono
      refine hasked.turn name (.message _ bytes) late fun ticket found hfound => ?_
      cases hfound
      exact ⟨frame, by simp, hencoded⟩
  | call act =>
    have hdials : Rules.others c.dial.link.outbox act = true ∧
        ((∃ name late, act = .flush name late) ∨ ∃ name late, act = .wake name late) ∧
        c.dials (.link (.call act)) = some d := by
      simp only [step] at hstep
      split at hstep
      · split_ifs at hstep with hothers
        exact ⟨hothers, .inl ⟨_, _, rfl⟩, hstep⟩
      · split_ifs at hstep with hothers
        exact ⟨hothers, .inr ⟨_, _, rfl⟩, hstep⟩
      · cases hstep
    obtain ⟨hothers, hact, hdials⟩ := hdials
    obtain ⟨outbox, -, houtbox, rfl⟩ := dials_call hdials
    obtain ⟨hcontrol, hcalls⟩ := Rules.others_step hothers houtbox
    refine ⟨?_, hstill rfl rfl rfl hcontrol hcalls⟩
    rw [hnone rfl]
    rcases hact with ⟨name, late, rfl⟩ | ⟨name, late, rfl⟩
    · simp only [Outbox.step] at houtbox
      split_ifs at houtbox
      cases houtbox
      exact hwaits.turn name (.flush _ _) late fun ticket bytes hcall => by cases hcall
    · obtain ⟨call, hcall, rfl⟩ := Option.map_eq_some_iff.1 houtbox
      refine hwaits.turn name call late fun ticket bytes hmessage => ?_
      rw [hmessage] at hcall
      exact hwaits name ticket bytes hcall
  | rules act =>
    have hrules : (∀ other, act ≠ .outbox other) ∧
        (Rules.step engine c.rules act).map c.withRules = some d := by
      cases act <;> first | exact ⟨by simp, hstep⟩ | cases hstep
    obtain ⟨r, hr, rfl⟩ := Option.map_eq_some_iff.1 hrules.2
    obtain ⟨more, hcontrol, hagrees⟩ := h.step hr
    refine ⟨?_, ⟨more, hcontrol, hagrees.congr rfl rfl rfl fun _ _ hcall => hcall⟩,
      fun hfitting hpattern => ⟨?_, hfitting.control h hr⟩⟩
    · rcases h.outbox_step hrules.1 hr with hsame | ⟨name, frame, late, call, -, -, hturn⟩
      · rw [withRules, hsame]
        exact hwaits.quiet (Quiet.refl _) _
      · rw [hnone rfl, withRules, hturn]
        exact hwaits.turn name (.control frame) late fun ticket bytes hcall => by cases hcall
    · have hnext := hfitting.step hpattern hr
      exact ⟨hnext.rules, hnext.ops⟩
  | dial act =>
    have hdials : (∀ call, act ≠ .link (.call call)) ∧ c.dials act = some d := by
      simp only [step] at hstep
      split at hstep
      · cases hstep
      · rename_i hnot
        exact ⟨fun call heq => hnot call heq, hstep⟩
    obtain ⟨hquiet, hsubscriptions, hchanging, hops⟩ := dials_quiet hdials.1 hdials.2
    exact hnothing hquiet hops hchanging hsubscriptions
  | unwritable =>
    cases hstep
    exact hnothing (Quiet.refl _) rfl rfl rfl

end Client

/-- A client's end of a connection: its outbox was given the messages it let in, each one the frame of
a publish that it was asked for, and control frames that come to the set of its subscriptions. -/
structure ClientEnd (opening : Subscriptions Regex) (c : Client Regex) (asked : List Frame)
    (offered controls : List Bytes) : Prop where
  fitting : Rules.Fitting c.rules
  opens : c.opening = opening.forARelay
  waits : Client.Waits asked c.dial.link.outbox
  frames : ∀ bytes ∈ offered, Client.Encodes asked bytes
  tells : Client.Tells controls
  agrees : ∃ told, controls = told.map Rules.Tell.frame ∧
    Rules.Agrees (Rules.texts opening) c.rules told
  link : ∃ linkPast, Link.Sound c.dial.link linkPast ∧ Link.came .message linkPast = offered ∧
    Link.came .control linkPast = controls

theorem clientEnd_new (receives : Bool) {opening : Subscriptions Regex}
    (h : ∀ text ∈ opening.forARelay, Fits32 text) :
    ClientEnd opening (.new receives opening) [] [] [] where
  fitting := ⟨(Rules.fitting_start receives h).rules, fun _ _ h => nomatch h⟩
  opens := rfl
  waits _ _ _ h := nomatch h
  frames _ h := nomatch h
  tells _ h := nomatch h
  agrees := ⟨[], rfl, (Rules.agrees_start receives opening).congr rfl rfl rfl fun _ _ h => nomatch h⟩
  link := ⟨[], Link.sound_new, rfl, rfl⟩

namespace ClientEnd

variable {opening : Subscriptions Regex} {c d : Client Regex} {asked : List Frame}
  {offered controls : List Bytes}

/-- What a step of its threads makes of it. -/
theorem step (h : ClientEnd opening c asked offered controls) {move : Move}
    (hpattern : ∀ pattern, move.pattern = some pattern → Fits32 pattern)
    (hstep : c.step engine move = some d) :
    ClientEnd opening d (asked ++ move.publishes)
      (offered ++ entered .message c.dial.link.outbox d.dial.link.outbox)
      (controls ++ entered .control c.dial.link.outbox d.dial.link.outbox) := by
  obtain ⟨linkPast, hsound, hmessage, hcontrol⟩ := h.link
  obtain ⟨told, htold, hagrees⟩ := h.agrees
  obtain ⟨⟨hwaits, hframes⟩, ⟨more, hmore, hnext⟩, hfitting⟩ :=
    Client.outbox_step hagrees h.waits hstep
  obtain ⟨hfits, htells⟩ := hfitting h.fitting hpattern
  refine ⟨hfits, (Client.rest_step hstep).1.trans h.opens, hwaits, fun bytes hbytes => ?_,
    fun frame hframe => ?_, ⟨told ++ more, by rw [htold, hmore, List.map_append], hnext⟩, ?_⟩
  · rcases List.mem_append.1 hbytes with hbytes | hbytes
    · exact (h.frames bytes hbytes).mono
    · exact hframes bytes hbytes
  · rcases List.mem_append.1 hframe with hframe | hframe
    · exact h.tells frame hframe
    · exact htells frame hframe
  · rcases Client.link_step hagrees hstep with hsame | ⟨m, hmove⟩
    · rw [hsame, (Quiet.refl _).2, (Quiet.refl _).2, List.append_nil, List.append_nil]
      exact ⟨linkPast, hsound, hmessage, hcontrol⟩
    · exact ⟨_, hsound.move hmove, by rw [Link.came_concat, hmessage],
        by rw [Link.came_concat, hcontrol]⟩

/-- What its reads, and those of the relay, leave of it. -/
theorem congr (h : ClientEnd opening c asked offered controls) (hopening : d.opening = c.opening)
    (hdial : d.dial = c.dial) (hrules : d.rules = c.rules) :
    ClientEnd opening d asked offered controls where
  fitting := hrules ▸ h.fitting
  opens := hopening.trans h.opens
  waits := hdial ▸ h.waits
  frames := h.frames
  tells := h.tells
  agrees := hrules ▸ h.agrees
  link := hdial ▸ h.link

end ClientEnd

end Relayed

end LcmBus
