import LcmBus.Client.Rules
import LcmBus.Wire.TcpqFormat

/-!
# The texts of the control frames

The length of a text is written in four bytes.  Where every pattern that a client is given has such a
length, so have the texts in all of its control frames: those of its names are names with escapes.

* `Fits32` and `fits32_escaped`: a text with a length of four bytes, and that of a name;
* `Fitting.step`: what an operation on the subscriptions holds and tells;
* `Tell.requestPlan_run`: what a relay makes of such a frame.
-/

namespace LcmBus

/-- The length of a text goes in four bytes. -/
def Fits32 (text : String) : Prop := (asBytes text).length < UInt32.size

instance (text : String) : Decidable (Fits32 text) := inferInstanceAs (Decidable (_ < _))

/-- Where some of the characters have an escape of one byte before them. -/
theorem length_flatMap_escape (p : Char → Prop) [DecidablePred p] (chars : List Char) :
    ((chars.flatMap fun c => if p c then ['\\', c] else [c]).flatMap String.utf8EncodeChar).length ≤
      2 * (chars.flatMap String.utf8EncodeChar).length := by
  have hescape : (String.utf8EncodeChar '\\').length = 1 := by decide
  induction chars with
  | nil => exact Nat.zero_le _
  | cons c chars ih =>
    have hpos : 1 ≤ (String.utf8EncodeChar c).length := by
      rw [String.length_utf8EncodeChar]
      exact c.utf8Size_pos
    rw [List.flatMap_cons, List.flatMap_append, List.length_append, List.flatMap_cons,
      List.length_append]
    split_ifs
    · rw [List.flatMap_cons, List.flatMap_singleton, List.length_append, hescape]
      omega
    · rw [List.flatMap_singleton]
      omega

theorem length_escaped_le (name : String) :
    (asBytes (escaped name)).length ≤ 2 * (asBytes name).length := by
  have hname : asBytes name = name.toList.flatMap String.utf8EncodeChar := by
    rw [← asBytes_ofList, String.ofList_toList]
  rw [escaped, asBytes_ofList, hname]
  exact length_flatMap_escape _ _

theorem fits32_escaped {Regex : Type} {name : String} {rule : Rule Regex}
    (h : Subscriptions.checkName name = .ok rule) : Fits32 (escaped name) := by
  obtain ⟨-, -, hlength⟩ := checkChannel_ok_iff.1 (Subscriptions.of_checkName h).1
  have hmax : 2 * channelMax < UInt32.size := by decide
  have hle := length_escaped_le name
  unfold Fits32
  omega

namespace Rules

open Outbox

variable {Regex : Type}

/-- The text of what a relay is told. -/
def Tell.text : Tell → String
  | .subscribe text | .unsubscribe text => text

/-- The texts of a change: the one the relay hears, and what it would be told of the rule. -/
def Change.Fits : Change Regex → Prop
  | .push text checked => Fits32 text ∧ Fits32 checked.forARelay
  | .remove held _ => Fits32 held

def Wanted.Fits : Wanted Regex → Prop
  | .subscribe text checked => Fits32 text ∧ Fits32 checked.forARelay
  | .unsubscribe _ => True

def Phase.Fits : Phase Regex → Prop
  | .waits wanted => wanted.Fits
  | .looks _ | .answered _ => True
  | .asks change | .tells change | .puts change | .queues change | .told change => change.Fits

/-- All that a client may tell its relay has a length of four bytes. -/
structure Fitting (s : State Regex) : Prop where
  rules : ∀ rule ∈ s.subscriptions.rules, Fits32 rule.forARelay
  ops : ∀ name phase, s.ops name = some phase → phase.Fits

theorem fitting_start (receives : Bool) {opening : Subscriptions Regex}
    (h : ∀ text ∈ opening.forARelay, Fits32 text) : Fitting (start receives opening) where
  rules _ hrule := h _ (List.mem_map_of_mem hrule)
  ops _ _ h := nomatch h

/-- The pattern a step gives a client. -/
def Act.pattern : Act → Option String
  | .subscribe _ pattern => some pattern
  | _ => none

namespace Fitting

variable {s t : State Regex} {name : ℕ}

/-- An operation goes on, with the set as it is. -/
theorem at_ (h : Fitting s) {u : State Regex} {phase : Phase Regex}
    (hsubscriptions : u.subscriptions = s.subscriptions) (hops : u.ops = s.ops) (hphase : phase.Fits) :
    Fitting (u.at_ name phase) := by
  refine ⟨?_, fun other found hfound => ?_⟩
  · show ∀ rule ∈ u.subscriptions.rules, Fits32 rule.forARelay
    rw [hsubscriptions]
    exact h.rules
  · rcases State.ops_at hfound with ⟨-, rfl⟩ | ⟨-, hfound⟩
    · exact hphase
    · rw [hops] at hfound
      exact h.ops other found hfound

theorem leave (h : Fitting s) (answer : Answer) : Fitting (s.leave name answer) :=
  h.at_ rfl rfl trivial

theorem enter (h : Fitting s) {checked : Except BadPattern (Wanted Regex)}
    (hchecked : ∀ wanted, checked = .ok wanted → wanted.Fits) : Fitting (s.enter name checked) := by
  unfold State.enter
  split_ifs
  · split
    · exact h.at_ rfl rfl trivial
    · exact h.at_ rfl rfl (hchecked _ rfl)
  · exact h.at_ rfl rfl trivial

/-- What `put_control` lets in is the frame of a change. -/
theorem put (h : Fitting s) {change : Change Regex} (hchange : change.Fits) {late : Bool}
    {act : Outbox.Act} (hput : s.put name change late act = some t) : Fitting t := by
  obtain ⟨outbox, -, rfl⟩ := Option.map_eq_some_iff.1 hput
  split
  · exact h.at_ rfl rfl hchange
  · exact h.at_ rfl rfl hchange
  · exact h.at_ rfl rfl trivial

/-- What is done to the set. -/
theorem change (h : Fitting s) {change : Change Regex} (hchange : change.Fits) :
    Fitting ({ s with subscriptions := (change.apply s.subscriptions).2 }.leave name
      (change.apply s.subscriptions).1) := by
  have hset : Fitting { s with subscriptions := (change.apply s.subscriptions).2 } := by
    refine ⟨fun rule hrule => ?_, h.ops⟩
    cases change with
    | push text checked =>
      rcases List.mem_append.1 hrule with hrule | hrule
      · exact h.rules rule hrule
      · rw [List.mem_singleton.1 hrule]
        exact hchange.2
    | remove held subscription => exact h.rules rule (List.eraseP_subset hrule)
  exact hset.leave _

/-- **No step of an operation takes a text that is too long.** -/
theorem step (h : Fitting s) {engine : Engine Regex} {act : Act}
    (hpattern : ∀ pattern, act.pattern = some pattern → Fits32 pattern)
    (hstep : Rules.step engine s act = some t) : Fitting t := by
  cases act with
  | subscribeName name channel =>
    cases hop : s.ops name <;> rw [Rules.step, hop] at hstep <;> cases hstep
    refine h.enter fun wanted hwanted => ?_
    cases hcheck : (Subscriptions.checkName channel : Except BadPattern (Rule Regex)) with
    | error bad =>
      rw [hcheck] at hwanted
      cases hwanted
    | ok rule =>
      have hfits := fits32_escaped hcheck
      obtain ⟨-, rfl⟩ := Subscriptions.of_checkName hcheck
      rw [hcheck] at hwanted
      cases hwanted
      exact ⟨hfits, hfits⟩
  | subscribe name pattern =>
    cases hop : s.ops name <;> rw [Rules.step, hop] at hstep <;> cases hstep
    refine h.enter fun wanted hwanted => ?_
    cases hcheck : Subscriptions.check engine pattern with
    | error bad =>
      rw [hcheck] at hwanted
      cases hwanted
    | ok rule =>
      obtain ⟨compiled, -, rfl⟩ := Subscriptions.of_check hcheck
      rw [hcheck] at hwanted
      cases hwanted
      exact ⟨hpattern pattern rfl, hpattern pattern rfl⟩
  | unsubscribe name subscription =>
    cases hop : s.ops name <;> rw [Rules.step, hop] at hstep <;> cases hstep
    refine h.enter fun wanted hwanted => ?_
    cases hwanted
    trivial
  | lock name =>
    simp only [Rules.step] at hstep
    split at hstep <;> cases hstep
    rename_i wanted hfree hwaits
    have hfits := h.ops name _ hwaits
    refine h.at_ rfl rfl ?_
    cases wanted with
    | subscribe => exact hfits
    | unsubscribe => trivial
  | next name late =>
    obtain ⟨phase, hphase, hnext⟩ := Option.bind_eq_some_iff.1 hstep
    have hfits := h.ops name phase hphase
    cases phase with
    | waits | answered => cases hnext
    | looks subscription =>
      simp only [State.next] at hnext
      split at hnext <;> cases hnext
      · exact h.leave _
      · rename_i held hfind
        obtain ⟨rule, hrule, rfl⟩ := Option.map_eq_some_iff.1 hfind
        have hheld : Fits32 rule.forARelay := h.rules rule (List.mem_of_find?_eq_some hrule)
        exact h.at_ rfl rfl hheld
    | asks change | tells change =>
      simp only [State.next] at hnext
      split_ifs at hnext <;> cases hnext
      · exact h.at_ rfl rfl hfits
      · exact h.leave _
    | puts change | queues change => exact h.put hfits hnext
    | told change =>
      cases hnext
      exact h.change hfits
  | outbox act =>
    simp only [Rules.step] at hstep
    split_ifs at hstep
    obtain ⟨outbox, -, rfl⟩ := Option.map_eq_some_iff.1 hstep
    exact ⟨h.rules, h.ops⟩
  | unwritable =>
    cases hstep
    exact ⟨h.rules, h.ops⟩

/-- And what it lets into the control lane is the frame of one that is not. -/
theorem control (h : Fitting s) {opening : Multiset String} {told : List Tell}
    (hagrees : Agrees opening s told) {engine : Engine Regex} {act : Act}
    (hstep : Rules.step engine s act = some t) :
    ∀ frame ∈ Rules.control s t, ∃ tell : Tell, Fits32 tell.text ∧ frame = tell.frame := by
  have hnothing : t.outbox = s.outbox → ∀ frame ∈ Rules.control s t, ∃ tell : Tell,
      Fits32 tell.text ∧ frame = tell.frame := fun houtbox frame hframe => by
    rw [control_of_outbox_eq houtbox] at hframe
    cases hframe
  have hput : ∀ {name : ℕ} {change : Change Regex} {late : Bool} {act : Outbox.Act}, change.Fits →
      (∀ outbox, Outbox.step s.outbox act = some outbox →
        outbox = s.outbox.turn name (.control change.frame) late) →
      s.put name change late act = some t →
      ∀ frame ∈ Rules.control s t, ∃ tell : Tell, Fits32 tell.text ∧ frame = tell.frame := by
    intro name change late act hfits hact hput frame hframe
    obtain ⟨outbox, -, ⟨-, hcontrol⟩ | ⟨-, hcontrol, -⟩ | ⟨_, -, hcontrol⟩⟩ := put_cases hact hput <;>
      rw [hcontrol] at hframe
    · refine ⟨change.tell, ?_, (List.mem_singleton.1 hframe).trans change.frame_tell.symm⟩
      cases change with
      | push text checked => exact hfits.1
      | remove held subscription => exact hfits
    · cases hframe
    · cases hframe
  cases act with
  | subscribeName name channel | subscribe name pattern | unsubscribe name subscription =>
    cases hop : s.ops name <;> rw [Rules.step, hop] at hstep <;> cases hstep
    refine hnothing ?_
    unfold State.enter
    split_ifs <;> [split; skip] <;> rfl
  | lock name =>
    simp only [Rules.step] at hstep
    split at hstep <;> cases hstep
    exact hnothing rfl
  | next name late =>
    obtain ⟨phase, hphase, hnext⟩ := Option.bind_eq_some_iff.1 hstep
    have hfits := h.ops name phase hphase
    cases phase with
    | waits | answered => cases hnext
    | looks subscription =>
      simp only [State.next] at hnext
      split at hnext <;> cases hnext <;> exact hnothing rfl
    | asks change | tells change =>
      simp only [State.next] at hnext
      split_ifs at hnext <;> cases hnext <;> exact hnothing rfl
    | puts change => exact hput hfits (fun _ hcall => turn_of_putControl hcall) hnext
    | queues change =>
      exact hput hfits (fun _ hcall => turn_of_wake (hagrees.queued name change hphase) hcall) hnext
    | told change =>
      cases hnext
      exact hnothing rfl
  | outbox act =>
    simp only [Rules.step] at hstep
    split_ifs at hstep with hothers
    obtain ⟨outbox, houtbox, rfl⟩ := Option.map_eq_some_iff.1 hstep
    intro frame hframe
    have hentered : Rules.control s { s with outbox } = [] := (others_step hothers houtbox).1
    rw [hentered] at hframe
    cases hframe
  | unwritable =>
    cases hstep
    exact hnothing rfl

end Fitting

/-! ### What a relay makes of them -/

/-- A frame says one thing. -/
theorem Tell.frame_injective : Function.Injective Tell.frame := by
  have htext : ∀ {kind kind' : UInt32} {text text' : String},
      Tcpq.request kind text = Tcpq.request kind' text' → text = text' := by
    intro kind kind' text text' h
    have hdrop := congrArg (List.drop 8) h
    unfold Tcpq.request Tcpq.lengthPrefixed at hdrop
    rw [← List.append_assoc, ← List.append_assoc, List.drop_left' (by simp),
      List.drop_left' (by simp)] at hdrop
    have hread := congrArg fromUtf8 hdrop
    rwa [fromUtf8_asBytes, fromUtf8_asBytes, Option.some_inj] at hread
  have hkind : ∀ {kind kind' : UInt32} {text text' : String},
      Tcpq.request kind text = Tcpq.request kind' text' → u32ToBe kind = u32ToBe kind' := by
    intro kind kind' text text' h
    have htake := congrArg (List.take 4) h
    unfold Tcpq.request at htake
    rwa [List.take_left' (by simp), List.take_left' (by simp)] at htake
  intro tell other h
  cases tell <;> cases other
  · exact congrArg Tell.subscribe (htext h)
  · exact absurd (hkind h) (by decide)
  · exact absurd (hkind h) (by decide)
  · exact congrArg Tell.unsubscribe (htext h)

/-- What a relay finds in the frame. -/
def Tell.request : Tell → Tcpq.Request
  | .subscribe text => .subscribe text
  | .unsubscribe text => .unsubscribe text

/-- A relay takes such a frame, or it stops there. -/
theorem Tell.requestPlan_run {tell : Tell} (h : Fits32 tell.text) :
    Tcpq.requestPlan.run tell.frame = .take (some tell.request) tell.frame.length ∨
      ∃ e, Tcpq.requestPlan.run tell.frame = .fail e := by
  have hrequest : ∃ kind, (kind = Tcpq.messageTypeSubscribe ∨ kind = Tcpq.messageTypeUnsubscribe) ∧
      tell.frame = Tcpq.request kind tell.text ∧ tell.request = Tcpq.requestOf kind tell.text := by
    cases tell with
    | subscribe text => exact ⟨_, .inl rfl, rfl, rfl⟩
    | unsubscribe text => exact ⟨_, .inr rfl, rfl, rfl⟩
  obtain ⟨kind, hkind, hframe, hfound⟩ := hrequest
  have hread := Tcpq.decodeRequest_request hkind h []
  rw [List.append_nil] at hread
  rw [hframe, hfound, ← Tcpq.answer_decodeRequest, hread]
  split_ifs
  · exact .inr ⟨_, rfl⟩
  · exact .inl rfl

end Rules

end LcmBus
