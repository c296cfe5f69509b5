import LcmBus.Bus.Subscriptions
import LcmBus.Client.OutboxOrder
import LcmBus.Wire.Tcpq

/-!
# The rules of a client, and the ones its relay was told

`subscribe_name`, `subscribe` and `unsubscribe` of a client that dialled a relay.

* `Phase`: where an operation is, between the check, the lock, the relay and the set;
* `State` and `step`: one step of any operation, or of anyone else at the outbox;
* `Tell` and `Agrees`: what was let into the control lane, as changes of a multiset of texts, and that
  the set of the client is what comes of it;
* `Agrees.step`: no step of any operation takes the two apart.
-/

namespace LcmBus.Rules

open Outbox

variable {Regex : Type}

/-! ### The operations -/

/-- Of the errors of a client, the ones an operation on its subscriptions gives back. -/
inductive ClientError
  | publishOnly
  | pattern (bad : BadPattern)
  | closed
  | timedOut
  deriving DecidableEq, Repr

/-- `refused`. -/
def refused : Refused → ClientError
  | .tooSlow => .timedOut
  | .gone => .closed

/-- What an operation is to do under the lock. -/
inductive Wanted (Regex : Type)
  /-- The text for the relay, and the rule that was read. -/
  | subscribe (text : String) (checked : Rule Regex)
  | unsubscribe (subscription : String)
  deriving DecidableEq, Repr

/-- A change of the set that the relay hears of first. -/
inductive Change (Regex : Type)
  | push (text : String) (checked : Rule Regex)
  /-- What the relay was told of the first rule equal to the subscription. -/
  | remove (held subscription : String)
  deriving DecidableEq, Repr

/-- What an operation gives back. -/
inductive Answer
  | ok
  | whether (had : Bool)
  | err (e : ClientError)
  deriving DecidableEq, Repr

/-- The set of the client was to change. -/
def Answer.changes : Answer → Bool
  | .ok | .whether true => true
  | .whether false | .err _ => false

/-- Where an operation is. -/
inductive Phase (Regex : Type)
  /-- Waits for `changing`. -/
  | waits (wanted : Wanted Regex)
  /-- Has it, and is to look for the rule. -/
  | looks (subscription : String)
  /-- In `tell_relay`, which tests `writable`. -/
  | asks (change : Change Regex)
  /-- In `tell_relay_frame`, which tests it as well. -/
  | tells (change : Change Regex)
  | puts (change : Change Regex)
  /-- In the loop of `put_control`. -/
  | queues (change : Change Regex)
  /-- The frame is in the control lane. -/
  | told (change : Change Regex)
  | answered (answer : Answer)
  deriving DecidableEq, Repr

/-- The operation has the lock. -/
def Phase.holds : Phase Regex → Bool
  | .waits _ | .answered _ => false
  | _ => true

def Change.frame : Change Regex → Bytes
  | .push text _ => Tcpq.subscribe text
  | .remove held _ => Tcpq.unsubscribe held

/-- The set behind a change, and what the operation gives back. -/
def Change.apply (s : Subscriptions Regex) : Change Regex → Answer × Subscriptions Regex
  | .push _ checked => (.ok, s.push checked)
  | .remove _ subscription =>
    (.whether (s.remove subscription).1.isSome, (s.remove subscription).2)

structure State (Regex : Type) where
  receives : Bool
  writable : Bool
  subscriptions : Subscriptions Regex
  /-- The operation that has the lock. -/
  changing : Option ℕ
  outbox : Outbox.State
  /-- The operations, each by a name of its own. -/
  ops : ℕ → Option (Phase Regex)

/-- A client that dialled a relay, with its opening subscriptions. -/
def start (receives : Bool) (opening : Subscriptions Regex) : State Regex :=
  ⟨receives, true, opening, none, .new, fun _ => none⟩

namespace State

variable (s : State Regex) (name : ℕ)

def at_ (phase : Phase Regex) : State Regex :=
  { s with ops := Function.update s.ops name (some phase) }

/-- Of the operations, one is where it went, and the others are where they were. -/
theorem ops_at {s : State Regex} {name other : ℕ} {phase found : Phase Regex}
    (h : (s.at_ name phase).ops other = some found) :
    other = name ∧ found = phase ∨ other ≠ name ∧ s.ops other = some found := by
  have h : Function.update s.ops name (some phase) other = some found := h
  rcases eq_or_ne other name with rfl | hne
  · rw [Function.update_self] at h
    exact .inl ⟨rfl, (Option.some.inj h).symm⟩
  · rw [Function.update_of_ne hne] at h
    exact .inr ⟨hne, h⟩

/-- An operation gives back an answer, and with it the lock. -/
def leave (answer : Answer) : State Regex :=
  { s with changing := none }.at_ name (.answered answer)

/-- In front of the lock: `must_receive`, and what the check of the rule came to. -/
def enter (checked : Except BadPattern (Wanted Regex)) : State Regex :=
  if s.receives then
    match checked with
    | .error bad => s.at_ name (.answered (.err (.pattern bad)))
    | .ok wanted => s.at_ name (.waits wanted)
  else s.at_ name (.answered (.err .publishOnly))

/-- One turn of `put_control`. -/
def put (change : Change Regex) (late : Bool) (act : Outbox.Act) : Option (State Regex) :=
  (Outbox.step s.outbox act).map fun outbox =>
    match (s.outbox.queue.controlTurn change.frame late).1 with
    | .through => { s with outbox }.at_ name (.told change)
    | .waits => { s with outbox }.at_ name (.queues change)
    | .refused why => { s with outbox }.leave name (.err (refused why))

/-- The next step of an operation that has the lock. -/
def next (late : Bool) : Phase Regex → Option (State Regex)
  | .waits _ | .answered _ => none
  | .looks subscription =>
    match s.subscriptions.find subscription with
    | none => some (s.leave name (.whether false))
    | some held => some (s.at_ name (.asks (.remove held subscription)))
  | .asks change =>
    if s.writable then some (s.at_ name (.tells change)) else some (s.leave name (.err .closed))
  | .tells change =>
    if s.writable then some (s.at_ name (.puts change)) else some (s.leave name (.err .closed))
  | .puts change => s.put name change late (.putControl name change.frame late)
  | .queues change => s.put name change late (.wake name late)
  | .told change =>
    let (answer, subscriptions) := change.apply s.subscriptions
    some ({ s with subscriptions }.leave name answer)

end State

/-- What an operation does where it gets the lock. -/
def Wanted.start : Wanted Regex → Phase Regex
  | .subscribe text checked => .asks (.push text checked)
  | .unsubscribe subscription => .looks subscription

inductive Act
  | subscribeName (name : ℕ) (channel : String)
  | subscribe (name : ℕ) (pattern : String)
  | unsubscribe (name : ℕ) (subscription : String)
  /-- An operation gets `changing`. -/
  | lock (name : ℕ)
  | next (name : ℕ) (late : Bool)
  /-- Any other caller of the outbox, its writer, and those who shut it. -/
  | outbox (act : Outbox.Act)
  /-- `close`, or an end of the writer or of the reader. -/
  | unwritable
  deriving DecidableEq, Repr

/-- The operation a step is one of. -/
def Act.name : Act → Option ℕ
  | .subscribeName name _ | .subscribe name _ | .unsubscribe name _ | .lock name | .next name _ =>
    some name
  | .outbox _ | .unwritable => none

/-- A step at the outbox that is none of `put_control`. -/
def others (s : Outbox.State) : Outbox.Act → Bool
  | .putControl .. => false
  | .wake name _ =>
    match s.calls name with
    | some (.control _) => false
    | _ => true
  | _ => true

/-- One step of one thread. -/
def step (engine : Engine Regex) (s : State Regex) : Act → Option (State Regex)
  | .subscribeName name channel =>
    match s.ops name with
    | none => some (s.enter name ((Subscriptions.checkName channel).map
        (.subscribe (escaped channel))))
    | some _ => none
  | .subscribe name pattern =>
    match s.ops name with
    | none => some (s.enter name ((Subscriptions.check engine pattern).map (.subscribe pattern)))
    | some _ => none
  | .unsubscribe name subscription =>
    match s.ops name with
    | none => some (s.enter name (.ok (.unsubscribe subscription)))
    | some _ => none
  | .lock name =>
    match s.changing, s.ops name with
    | none, some (.waits wanted) => some ({ s with changing := some name }.at_ name wanted.start)
    | _, _ => none
  | .next name late => (s.ops name).bind (s.next name late)
  | .outbox act =>
    if others s.outbox act then (Outbox.step s.outbox act).map fun outbox => { s with outbox }
    else none
  | .unwritable => some { s with writable := false }

/-! ### What the relay was told -/

/-- What a frame of the control lane says. -/
inductive Tell
  | subscribe (text : String)
  | unsubscribe (text : String)
  deriving DecidableEq, Repr

namespace Tell

def frame : Tell → Bytes
  | subscribe text => Tcpq.subscribe text
  | unsubscribe text => Tcpq.unsubscribe text

/-- What it makes of the texts a relay holds. -/
def apply (texts : Multiset String) : Tell → Multiset String
  | subscribe text => text ::ₘ texts
  | unsubscribe text => texts.erase text

/-- The text of a subscribe. -/
def taken : Tell → Option String
  | subscribe text => some text
  | unsubscribe _ => none

/-- The text of an unsubscribe. -/
def dropped : Tell → Option String
  | subscribe _ => none
  | unsubscribe text => some text

end Tell

/-- The texts of all subscribe frames. -/
def subscribed (told : List Tell) : Multiset String := told.filterMap Tell.taken

/-- The texts of all unsubscribe frames. -/
def unsubscribed (told : List Tell) : Multiset String := told.filterMap Tell.dropped

namespace Tell

theorem subscribed_concat (told : List Tell) (text : String) :
    subscribed (told ++ [subscribe text]) = text ::ₘ subscribed told ∧
      unsubscribed (told ++ [subscribe text]) = unsubscribed told := by
  simp only [subscribed, unsubscribed, List.filterMap_append, List.filterMap_cons, taken, dropped,
    List.filterMap_nil, List.append_nil, Multiset.cons_coe, Multiset.coe_eq_coe, and_true]
  exact List.perm_append_singleton _ _

theorem unsubscribed_concat (told : List Tell) (text : String) :
    subscribed (told ++ [unsubscribe text]) = subscribed told ∧
      unsubscribed (told ++ [unsubscribe text]) = text ::ₘ unsubscribed told := by
  simp only [subscribed, unsubscribed, List.filterMap_append, List.filterMap_cons, taken, dropped,
    List.filterMap_nil, List.append_nil, Multiset.cons_coe, Multiset.coe_eq_coe, true_and]
  exact List.perm_append_singleton _ _

/-- What is held and what was dropped is what was there first and what was taken, where a text that
is dropped is held. -/
theorem balance {opening texts : Multiset String} {told : List Tell} {tell : Tell}
    (h : texts + unsubscribed told = opening + subscribed told)
    (hmem : tell.dropped.elim True (· ∈ texts)) :
    tell.apply texts + unsubscribed (told ++ [tell]) = opening + subscribed (told ++ [tell]) := by
  cases tell with
  | subscribe text =>
    obtain ⟨hsubscribed, hunsubscribed⟩ := subscribed_concat told text
    rw [hsubscribed, hunsubscribed, apply, Multiset.cons_add, h, Multiset.add_cons]
  | unsubscribe text =>
    obtain ⟨hsubscribed, hunsubscribed⟩ := unsubscribed_concat told text
    have hmem : text ∈ texts := hmem
    rw [hsubscribed, hunsubscribed, apply, Multiset.add_cons, ← Multiset.cons_add,
      Multiset.cons_erase hmem, h]

end Tell

/-- The texts held behind all of it. -/
def behind (opening : Multiset String) (told : List Tell) : Multiset String :=
  told.foldl Tell.apply opening

@[simp] theorem behind_concat (opening : Multiset String) (told : List Tell) (tell : Tell) :
    behind opening (told ++ [tell]) = tell.apply (behind opening told) := by
  simp [behind]

/-- The frames a step lets into the control lane. -/
def control (s t : State Regex) : List Bytes := entered .control s.outbox t.outbox

/-- The frames let into the control lane in all of a past. -/
def letIn (past : List (State Regex × Act × State Regex)) : List Bytes :=
  past.flatMap fun (s, _, t) => control s t

@[simp] theorem letIn_concat (past : List (State Regex × Act × State Regex)) (s t : State Regex)
    (act : Act) : letIn (past ++ [(s, act, t)]) = letIn past ++ control s t := by
  simp [letIn]

/-- The texts of a set, as a relay has them. -/
def texts (s : Subscriptions Regex) : Multiset String := s.forARelay

namespace Change

/-- What the relay is told of it. -/
def tell : Change Regex → Tell
  | push text _ => .subscribe text
  | remove held _ => .unsubscribe held

theorem frame_tell (change : Change Regex) : change.tell.frame = change.frame := by
  cases change <;> rfl

/-- The relay is told what the set comes to. -/
def Sound (s : Subscriptions Regex) : Change Regex → Prop
  | push text checked => checked.forARelay = text
  | remove held subscription => s.find subscription = some held

variable {s : Subscriptions Regex} {change : Change Regex}

theorem Sound.answer (h : change.Sound s) : (change.apply s).1.changes = true := by
  cases change with
  | push text checked => rfl
  | remove held subscription =>
    have hfind : s.find subscription = some held := h
    simp [apply, Subscriptions.remove, hfind, Answer.changes]

/-- The text of an unsubscribe is there. -/
theorem Sound.mem (h : change.Sound s) : change.tell.dropped.elim True (· ∈ texts s) := by
  cases change with
  | push text checked => trivial
  | remove held subscription =>
    exact (Subscriptions.forARelay_remove h).subset List.mem_cons_self

theorem Sound.texts_apply (h : change.Sound s) :
    texts (change.apply s).2 = change.tell.apply (texts s) := by
  cases change with
  | push text checked =>
    have htext : checked.forARelay = text := h
    show ((s.push checked).forARelay : Multiset String) = text ::ₘ (s.forARelay : Multiset String)
    rw [Subscriptions.forARelay_push, htext, Multiset.cons_coe, Multiset.coe_eq_coe]
    exact List.perm_append_singleton _ _
  | remove held subscription =>
    show ((s.remove subscription).2.forARelay : Multiset String) =
      (s.forARelay : Multiset String).erase held
    rw [← Multiset.coe_eq_coe.2 (Subscriptions.forARelay_remove h), ← Multiset.cons_coe,
      Multiset.erase_cons_head]

end Change

/-- The change an operation is at. -/
def Phase.change : Phase Regex → Option (Change Regex)
  | .asks change | .tells change | .puts change | .queues change | .told change => some change
  | .waits _ | .looks _ | .answered _ => none

theorem Phase.holds_of_change {phase : Phase Regex} {change : Change Regex}
    (h : phase.change = some change) : phase.holds = true := by
  cases phase <;> first | rfl | cases h

/-- The operation has told the relay nothing, and is not through. -/
def Phase.Early : Phase Regex → Prop
  | .told _ | .answered _ => False
  | _ => True

/-- The relay will be told of a rule what it makes of itself. -/
def Wanted.Sound : Wanted Regex → Prop
  | .subscribe text checked => checked.forARelay = text
  | .unsubscribe _ => True

/-- What holds in every state: the lock is had by one operation, which knows what it is to change; and
what was let into the control lane comes to the set of the client, with the change of the operation
that has told the relay and not changed the set yet. -/
structure Agrees (opening : Multiset String) (s : State Regex) (told : List Tell) : Prop where
  holder : ∀ name phase, s.ops name = some phase → phase.holds = true → s.changing = some name
  sound : ∀ name phase change, s.ops name = some phase → phase.change = some change →
    change.Sound s.subscriptions
  wanted : ∀ name wanted, s.ops name = some (.waits wanted) → wanted.Sound
  queued : ∀ name change, s.ops name = some (.queues change) →
    s.outbox.calls name = some (.control change.frame)
  settled : (∀ name change, s.ops name ≠ some (.told change)) →
    texts s.subscriptions = behind opening told
  pending : ∀ name change, s.ops name = some (.told change) →
    change.tell.apply (texts s.subscriptions) = behind opening told
  balance : behind opening told + unsubscribed told = opening + subscribed told

theorem agrees_start (receives : Bool) (opening : Subscriptions Regex) :
    Agrees (texts opening) (start receives opening) [] where
  holder _ _ h := nomatch h
  sound _ _ _ h := nomatch h
  wanted _ _ h := nomatch h
  queued _ _ h := nomatch h
  settled _ := rfl
  pending _ _ h := nomatch h
  balance := rfl

namespace Agrees

variable {opening : Multiset String} {s t : State Regex} {told : List Tell} {name : ℕ}

/-- An operation that is not past the relay goes to where it is not past it either. -/
theorem move (h : Agrees opening s told) {phase : Phase Regex} {changing : Option ℕ}
    {outbox : Outbox.State} (hold : ∀ change, s.ops name ≠ some (.told change))
    (hnew : ∀ change, phase ≠ .told change)
    (hfree : changing = s.changing ∨ s.changing = none ∨ s.changing = some name)
    (hholds : phase.holds = true → changing = some name)
    (hsound : ∀ change, phase.change = some change → change.Sound s.subscriptions)
    (hwanted : ∀ wanted, phase = .waits wanted → wanted.Sound)
    (hqueued : ∀ change, phase = .queues change →
      outbox.calls name = some (.control change.frame))
    (hcalls : ∀ other ≠ name, outbox.calls other = s.outbox.calls other) :
    Agrees opening ({ s with changing, outbox }.at_ name phase) told := by
  constructor
  · intro other found hother hfound
    rcases State.ops_at hother with ⟨rfl, rfl⟩ | ⟨hne, hother⟩
    · exact hholds hfound
    · have hother := h.holder other found hother hfound
      rcases hfree with hfree | hfree | hfree
      · exact hfree.trans hother
      · rw [hfree] at hother
        cases hother
      · rw [hfree] at hother
        exact absurd (Option.some.inj hother).symm hne
  · intro other found change hother hchange
    rcases State.ops_at hother with ⟨rfl, rfl⟩ | ⟨hne, hother⟩
    · exact hsound change hchange
    · exact h.sound other found change hother hchange
  · intro other wanted hother
    rcases State.ops_at hother with ⟨rfl, hphase⟩ | ⟨hne, hother⟩
    · exact hwanted wanted hphase.symm
    · exact h.wanted other wanted hother
  · intro other change hother
    rcases State.ops_at hother with ⟨rfl, hphase⟩ | ⟨hne, hother⟩
    · exact hqueued change hphase.symm
    · exact (hcalls other hne).trans (h.queued other change hother)
  · intro hnone
    apply h.settled
    intro other change hother
    rcases eq_or_ne other name with rfl | hne
    · exact hold change hother
    · apply hnone other change
      show Function.update s.ops name (some phase) other = _
      rwa [Function.update_of_ne hne]
  · intro other change hother
    rcases State.ops_at hother with ⟨rfl, hphase⟩ | ⟨hne, hother⟩
    · exact absurd hphase.symm (hnew change)
    · exact h.pending other change hother
  · exact h.balance

/-- The relay is told. -/
theorem tell (h : Agrees opening s told) {phase : Phase Regex} {change : Change Regex}
    {outbox : Outbox.State} (hphase : s.ops name = some phase) (hchange : phase.change = some change)
    (hold : ∀ change, s.ops name ≠ some (.told change))
    (hcalls : ∀ other ≠ name, outbox.calls other = s.outbox.calls other) :
    Agrees opening ({ s with outbox }.at_ name (.told change)) (told ++ [change.tell]) := by
  have hholds := Phase.holds_of_change hchange
  have hlock := h.holder name phase hphase hholds
  have hsound := h.sound name phase change hphase hchange
  -- No other operation has told the relay: it would have the lock.
  have hnone : ∀ other change, s.ops other ≠ some (.told change) := fun other change hother => by
    have hother' := hlock.symm.trans (h.holder other _ hother rfl)
    rw [← Option.some.inj hother'] at hother
    exact hold change hother
  have hsettled := h.settled hnone
  constructor
  · intro other found hother hfound
    rcases State.ops_at hother with ⟨rfl, -⟩ | ⟨hne, hother⟩
    · exact hlock
    · exact h.holder other found hother hfound
  · intro other found change' hother hfound
    rcases State.ops_at hother with ⟨rfl, rfl⟩ | ⟨hne, hother⟩
    · cases hfound
      exact hsound
    · exact h.sound other found change' hother hfound
  · intro other wanted hother
    rcases State.ops_at hother with ⟨rfl, hsame⟩ | ⟨hne, hother⟩
    · cases hsame
    · exact h.wanted other wanted hother
  · intro other change' hother
    rcases State.ops_at hother with ⟨rfl, hsame⟩ | ⟨hne, hother⟩
    · cases hsame
    · exact (hcalls other hne).trans (h.queued other change' hother)
  · intro hnot
    exact absurd (Function.update_self name _ s.ops) (hnot name change)
  · intro other change' hother
    rw [behind_concat, ← hsettled]
    rcases State.ops_at hother with ⟨rfl, hsame⟩ | ⟨hne, hother⟩
    · cases hsame
      rfl
    · exact absurd hother (hnone other change')
  · rw [behind_concat, ← hsettled]
    have hbalance := h.balance
    rw [← hsettled] at hbalance
    exact Tell.balance hbalance hsound.mem

/-- The set changes as the relay was told. -/
theorem change (h : Agrees opening s told) {change : Change Regex}
    (hphase : s.ops name = some (.told change)) :
    Agrees opening ({ s with subscriptions := (change.apply s.subscriptions).2 }.leave name
      (change.apply s.subscriptions).1) told := by
  have hlock := h.holder name _ hphase rfl
  have hsound := h.sound name _ change hphase rfl
  have hpending := h.pending name change hphase
  rw [← hsound.texts_apply] at hpending
  -- The others wait for the lock, or are through.
  have hidle : ∀ other found, other ≠ name → s.ops other = some found → found.holds = false :=
    fun other found hne hother => by
      by_contra hfound
      have hother' := h.holder other found hother (by simpa using hfound)
      exact hne (Option.some.inj (hother'.symm.trans hlock))
  constructor
  · intro other found hother hfound
    rcases State.ops_at hother with ⟨rfl, rfl⟩ | ⟨hne, hother⟩
    · cases hfound
    · exact nomatch (hidle other found hne hother).symm.trans hfound
  · intro other found change' hother hfound
    rcases State.ops_at hother with ⟨rfl, rfl⟩ | ⟨hne, hother⟩
    · cases hfound
    · exact nomatch (hidle other found hne hother).symm.trans (Phase.holds_of_change hfound)
  · intro other wanted hother
    rcases State.ops_at hother with ⟨rfl, hsame⟩ | ⟨hne, hother⟩
    · cases hsame
    · exact h.wanted other wanted hother
  · intro other change' hother
    rcases State.ops_at hother with ⟨rfl, hsame⟩ | ⟨hne, hother⟩
    · cases hsame
    · exact h.queued other change' hother
  · exact fun _ => hpending
  · intro other change' hother
    rcases State.ops_at hother with ⟨rfl, hsame⟩ | ⟨hne, hother⟩
    · cases hsame
    · exact nomatch hidle other _ hne hother
  · exact h.balance

end Agrees

/-! ### Every step -/

variable {opening : Multiset String} {s t : State Regex} {told : List Tell}

theorem control_of_outbox_eq (h : t.outbox = s.outbox) : control s t = [] :=
  entered_of_taken_eq (by rw [h])

/-- The others at the outbox let nothing into the control lane, and end no wait of an operation. -/
theorem others_step {s t : Outbox.State} {act : Outbox.Act} (hothers : others s act = true)
    (hstep : Outbox.step s act = some t) : entered .control s t = [] ∧
      ∀ name frame, s.calls name = some (.control frame) →
        t.calls name = some (.control frame) := by
  -- A turn of a call that is none of `put_control`, by a name that has none.
  have hturn : ∀ line nextTicket {name call late},
      t = { s with queue := { s.queue with line, nextTicket } }.turn name call late →
      call.lane ≠ some .control → (∀ frame, s.calls name ≠ some (.control frame)) →
      entered .control s t = [] ∧ ∀ name frame, s.calls name = some (.control frame) →
        t.calls name = some (.control frame) := by
    rintro line nextTicket name call late rfl hlane hname
    refine ⟨?_, fun other frame hother => ?_⟩
    · refine (entered_turn { s with queue := { s.queue with line, nextTicket } } name call late
        .control).trans (if_neg fun h => hlane h.2)
    · have hne : other ≠ name := fun h => hname frame (h ▸ hother)
      exact (Function.update_of_ne hne _ _).trans hother
  cases act with
  | putMessage name frame late =>
    simp only [Outbox.step] at hstep
    split_ifs at hstep with hfree
    cases hstep
    exact hturn _ _ rfl (by rintro ⟨⟩) (by simp [hfree])
  | putControl => cases hothers
  | flush name late =>
    simp only [Outbox.step] at hstep
    split_ifs at hstep with hfree
    cases hstep
    exact hturn s.queue.line s.queue.nextTicket rfl (by rintro ⟨⟩) (by simp [hfree])
  | wake name late =>
    obtain ⟨call, hcall, rfl⟩ := Option.map_eq_some_iff.1 hstep
    have hlane : ∀ frame, call ≠ .control frame := fun frame h => by
      rw [others, hcall, h] at hothers
      cases hothers
    refine hturn s.queue.line s.queue.nextTicket rfl (fun h => ?_) ?_
    · cases call <;> first | exact hlane _ rfl | cases h
    · simpa [hcall] using hlane
  | take | done | shut | abandon | exitShut | exitAbandon =>
    obtain ⟨hcalls, hentered⟩ := entered_of_not_ofCaller rfl hstep
    exact ⟨hentered .control, fun name frame h => by rw [hcalls, h]⟩

/-- The first turn of `put_control`, and one behind a wait. -/
theorem turn_of_putControl {s outbox : Outbox.State} {name : ℕ} {frame : Bytes} {late : Bool}
    (hstep : Outbox.step s (.putControl name frame late) = some outbox) :
    outbox = s.turn name (.control frame) late := by
  simp only [Outbox.step] at hstep
  split_ifs at hstep
  exact (Option.some.inj hstep).symm

theorem turn_of_wake {s outbox : Outbox.State} {name : ℕ} {frame : Bytes} {late : Bool}
    (hcall : s.calls name = some (.control frame))
    (hstep : Outbox.step s (.wake name late) = some outbox) :
    outbox = s.turn name (.control frame) late := by
  rw [Outbox.step, hcall] at hstep
  exact (Option.some.inj hstep).symm

/-- One turn of `put_control`: the frame is let in, or it is not and the operation waits or ends. -/
theorem put_cases {name : ℕ} {change : Change Regex} {late : Bool} {act : Outbox.Act}
    (hact : ∀ outbox, Outbox.step s.outbox act = some outbox →
      outbox = s.outbox.turn name (.control change.frame) late)
    (hput : s.put name change late act = some t) :
    ∃ outbox : Outbox.State, (∀ other ≠ name, outbox.calls other = s.outbox.calls other) ∧
      ((t = { s with outbox }.at_ name (.told change) ∧ control s t = [change.frame]) ∨
        (t = { s with outbox }.at_ name (.queues change) ∧ control s t = [] ∧
          outbox.calls name = some (.control change.frame)) ∨
        ∃ e, t = { s with outbox }.leave name (.err e) ∧ control s t = []) := by
  obtain ⟨outbox, hstep, rfl⟩ := Option.map_eq_some_iff.1 hput
  cases hact outbox hstep
  refine ⟨s.outbox.turn name (.control change.frame) late,
    fun other hne => Function.update_of_ne hne _ _, ?_⟩
  have hentered := entered_turn s.outbox name (.control change.frame) late .control
  have hnone : (s.outbox.queue.controlTurn change.frame late).1 ≠ .through →
      entered .control s.outbox (s.outbox.turn name (.control change.frame) late) = [] :=
    fun hturn => hentered.trans (if_neg fun h => hturn h.1)
  cases hturn : (s.outbox.queue.controlTurn change.frame late).1 with
  | through => exact .inl ⟨rfl, hentered.trans (if_pos ⟨hturn, rfl⟩)⟩
  | waits =>
    exact .inr (.inl ⟨rfl, hnone (by simp [hturn]),
      (Function.update_self ..).trans (if_pos hturn)⟩)
  | refused why => exact .inr (.inr ⟨_, rfl, hnone (by simp [hturn])⟩)

namespace Agrees

/-- A step that lets nothing into the control lane. -/
theorem still (h : Agrees opening t told) (hcontrol : control s t = []) :
    ∃ more, control s t = more.map Tell.frame ∧ Agrees opening t (told ++ more) :=
  ⟨[], hcontrol, by rwa [List.append_nil]⟩

/-- In front of the lock nothing changes. -/
theorem enter (h : Agrees opening s told) {name : ℕ} (hnew : s.ops name = none)
    {checked : Except BadPattern (Wanted Regex)} (hchecked : ∀ wanted, checked = .ok wanted →
      wanted.Sound) : Agrees opening (s.enter name checked) told := by
  have hold : ∀ change, s.ops name ≠ some (.told change) := by simp [hnew]
  unfold State.enter
  split_ifs
  · cases checked with
    | error bad =>
      exact h.move hold (by simp) (.inl rfl) (fun h => nomatch h) (fun _ h => nomatch h)
        (fun _ h => nomatch h) (fun _ h => nomatch h) (fun _ _ => rfl)
    | ok wanted =>
      refine h.move hold (by simp) (.inl rfl) (fun h => nomatch h) (fun _ h => nomatch h)
        (fun found hfound => ?_) (fun _ h => nomatch h) (fun _ _ => rfl)
      cases hfound
      exact hchecked wanted rfl
  · exact h.move hold (by simp) (.inl rfl) (fun h => nomatch h) (fun _ h => nomatch h)
      (fun _ h => nomatch h) (fun _ h => nomatch h) (fun _ _ => rfl)

/-- An operation that has the lock and has told the relay nothing ends. -/
theorem leave (h : Agrees opening s told) {name : ℕ} {phase : Phase Regex}
    (hphase : s.ops name = some phase) (hholds : phase.holds = true)
    (hold : ∀ change, phase ≠ .told change) (answer : Answer) :
    Agrees opening (s.leave name answer) told :=
  h.move (by simpa [hphase] using hold) (by simp) (.inr (.inr (h.holder name phase hphase hholds)))
    (fun h => nomatch h) (fun _ h => nomatch h) (fun _ h => nomatch h) (fun _ h => nomatch h)
    (fun _ _ => rfl)

/-- One turn of `put_control` keeps the two together. -/
theorem put (h : Agrees opening s told) {name : ℕ} {phase : Phase Regex} {change : Change Regex}
    (hphase : s.ops name = some phase) (hchange : phase.change = some change)
    (hold : ∀ change, phase ≠ .told change) {late : Bool} {act : Outbox.Act}
    (hact : ∀ outbox, Outbox.step s.outbox act = some outbox →
      outbox = s.outbox.turn name (.control change.frame) late)
    (hput : s.put name change late act = some t) :
    ∃ more, control s t = more.map Tell.frame ∧ Agrees opening t (told ++ more) := by
  have hlock := h.holder name phase hphase (Phase.holds_of_change hchange)
  have hold' : ∀ change, s.ops name ≠ some (.told change) := by simpa [hphase] using hold
  obtain ⟨outbox, hothers, ⟨rfl, hcontrol⟩ | ⟨rfl, hcontrol, hcall⟩ | ⟨e, rfl, hcontrol⟩⟩ :=
    put_cases hact hput
  · exact ⟨[change.tell], by rw [hcontrol, List.map_singleton, change.frame_tell],
      h.tell hphase hchange hold' hothers⟩
  · have hmoved : Agrees opening ({ s with outbox }.at_ name (.queues change)) told := by
      refine h.move hold' (by simp) (.inl rfl) (fun _ => hlock) (fun found hfound => ?_)
        (fun _ h => nomatch h) (fun found hfound => ?_) hothers
      · cases hfound
        exact h.sound name phase change hphase hchange
      · cases hfound
        exact hcall
    exact hmoved.still hcontrol
  · have hmoved : Agrees opening ({ s with outbox }.leave name (.err e)) told :=
      h.move hold' (by simp) (.inr (.inr hlock)) (fun h => nomatch h) (fun _ h => nomatch h)
        (fun _ h => nomatch h) (fun _ h => nomatch h) hothers
    exact hmoved.still hcontrol

/-- The next step of an operation that has the lock. -/
theorem next (h : Agrees opening s told) {name : ℕ} {phase : Phase Regex} {late : Bool}
    (hphase : s.ops name = some phase) (hnext : s.next name late phase = some t) :
    ∃ more, control s t = more.map Tell.frame ∧ Agrees opening t (told ++ more) := by
  -- Under the lock and short of the relay, from one place to the next.
  have hgo : ∀ {change next}, phase.holds = true → (∀ change, phase ≠ .told change) →
      (next = .asks change ∨ next = .tells change ∨ next = .puts change) →
      change.Sound s.subscriptions → Agrees opening (s.at_ name next) told := by
    intro change next hholds hold hafter hsound
    have hlock := h.holder name phase hphase hholds
    have hold' : ∀ change, s.ops name ≠ some (.told change) := by simpa [hphase] using hold
    rcases hafter with rfl | rfl | rfl <;>
    · refine h.move hold' (by simp) (.inl rfl) (fun _ => hlock) (fun found hfound => ?_)
        (fun _ h => nomatch h) (fun _ h => nomatch h) (fun _ _ => rfl)
      cases hfound
      exact hsound
  cases phase with
  | waits | answered => cases hnext
  | looks subscription =>
    simp only [State.next] at hnext
    split at hnext <;> cases hnext
    · exact (h.leave hphase rfl (by simp) _).still (control_of_outbox_eq rfl)
    · rename_i held hfind
      have hsound : (Change.remove held subscription).Sound s.subscriptions := hfind
      exact (hgo rfl (by simp) (.inl rfl) hsound).still (control_of_outbox_eq rfl)
  | asks change =>
    have hsound := h.sound name _ change hphase rfl
    simp only [State.next] at hnext
    split_ifs at hnext <;> cases hnext
    · exact (hgo rfl (by simp) (.inr (.inl rfl)) hsound).still (control_of_outbox_eq rfl)
    · exact (h.leave hphase rfl (by simp) _).still (control_of_outbox_eq rfl)
  | tells change =>
    have hsound := h.sound name _ change hphase rfl
    simp only [State.next] at hnext
    split_ifs at hnext <;> cases hnext
    · exact (hgo rfl (by simp) (.inr (.inr rfl)) hsound).still (control_of_outbox_eq rfl)
    · exact (h.leave hphase rfl (by simp) _).still (control_of_outbox_eq rfl)
  | puts change =>
    exact h.put hphase rfl (by simp) (fun _ hstep => turn_of_putControl hstep) hnext
  | queues change =>
    exact h.put hphase rfl (by simp) (fun _ hstep => turn_of_wake (h.queued name change hphase) hstep)
      hnext
  | told change =>
    cases hnext
    exact (h.change hphase).still (control_of_outbox_eq rfl)

/-- **No step takes the relay and the client apart.** -/
theorem step (h : Agrees opening s told) {engine : Engine Regex} {act : Act}
    (hstep : Rules.step engine s act = some t) :
    ∃ more, control s t = more.map Tell.frame ∧ Agrees opening t (told ++ more) := by
  cases act with
  | subscribeName name channel =>
    cases hop : s.ops name <;> rw [Rules.step, hop] at hstep <;> cases hstep
    refine (h.enter hop fun wanted hwanted => ?_).still (control_of_outbox_eq ?_)
    · unfold Subscriptions.checkName at hwanted
      split at hwanted <;> cases hwanted
      rfl
    · unfold State.enter
      split_ifs <;> [split; skip] <;> rfl
  | subscribe name pattern =>
    cases hop : s.ops name <;> rw [Rules.step, hop] at hstep <;> cases hstep
    refine (h.enter hop fun wanted hwanted => ?_).still (control_of_outbox_eq ?_)
    · unfold Subscriptions.check at hwanted
      split at hwanted <;> cases hwanted
      rfl
    · unfold State.enter
      split_ifs <;> [split; skip] <;> rfl
  | unsubscribe name subscription =>
    cases hop : s.ops name <;> rw [Rules.step, hop] at hstep <;> cases hstep
    refine (h.enter hop fun wanted hwanted => ?_).still (control_of_outbox_eq ?_)
    · cases hwanted
      trivial
    · unfold State.enter
      split_ifs <;> rfl
  | lock name =>
    simp only [Rules.step] at hstep
    split at hstep <;> cases hstep
    rename_i wanted hfree hwaits
    have hsound := h.wanted name wanted hwaits
    refine Agrees.still ?_ (control_of_outbox_eq rfl)
    refine h.move (by simp [hwaits]) (by cases wanted <;> simp [Wanted.start]) (.inr (.inl hfree))
      (fun _ => rfl) (fun change hchange => ?_) (fun _ hphase => ?_) (fun _ hphase => ?_)
      (fun _ _ => rfl)
    · cases wanted <;> cases hchange
      exact hsound
    · cases wanted <;> cases hphase
    · cases wanted <;> cases hphase
  | next name late =>
    obtain ⟨phase, hphase, hnext⟩ := Option.bind_eq_some_iff.1 hstep
    exact h.next hphase hnext
  | outbox act =>
    simp only [Rules.step] at hstep
    split_ifs at hstep with hothers
    obtain ⟨outbox, houtbox, rfl⟩ := Option.map_eq_some_iff.1 hstep
    obtain ⟨hcontrol, hcalls⟩ := others_step hothers houtbox
    have hnext : Agrees opening { s with outbox } told :=
      { h with queued := fun name change hqueues => hcalls name _ (h.queued name change hqueues) }
    exact hnext.still hcontrol
  | unwritable =>
    cases hstep
    exact Agrees.still { h with } (control_of_outbox_eq rfl)

/-- A step of an operation goes to where it has told the relay, or it was there and changes the set,
or it changes neither side. -/
theorem own (h : Agrees opening s told) {engine : Engine Regex} {act : Act} {name : ℕ}
    (hname : act.name = some name) (hstep : Rules.step engine s act = some t) :
    ∃ u phase, t = State.at_ u name phase ∧ u.ops = s.ops ∧
      ((∃ change, phase = .told change) ∨
        (∃ answer, phase = .answered answer ∧ answer.changes = true) ∨
        (t.subscriptions = s.subscriptions ∧ control s t = [] ∧
          ∀ found, s.ops name = some found → found.Early)) := by
  have henter : ∀ checked, s.ops name = none → t = s.enter name checked →
      ∃ u phase, t = State.at_ u name phase ∧ u.ops = s.ops ∧ t.subscriptions = s.subscriptions ∧
        control s t = [] ∧ ∀ found, s.ops name = some found → found.Early := by
    rintro checked hop rfl
    unfold State.enter
    split_ifs <;> [split; skip] <;>
      exact ⟨_, _, rfl, rfl, rfl, control_of_outbox_eq rfl, by simp [hop]⟩
  cases act with
  | subscribeName name' channel | subscribe name' pattern | unsubscribe name' subscription =>
    cases hname
    cases hop : s.ops name <;> rw [Rules.step, hop] at hstep <;> cases hstep
    obtain ⟨u, phase, ht, hops, hsame⟩ := henter _ hop rfl
    exact ⟨u, phase, ht, hops, .inr (.inr (hop ▸ hsame))⟩
  | lock name' =>
    cases hname
    simp only [Rules.step] at hstep
    split at hstep <;> cases hstep
    rename_i wanted hfree hwaits
    refine ⟨_, _, rfl, rfl, .inr (.inr ⟨rfl, control_of_outbox_eq rfl, fun found hfound => ?_⟩)⟩
    cases hwaits.symm.trans hfound
    trivial
  | next name' late =>
    cases hname
    obtain ⟨phase, hphase, hnext⟩ := Option.bind_eq_some_iff.1 hstep
    have hearly : phase.Early → ∀ found, s.ops name = some found → found.Early :=
      fun hearly found hfound => by
        cases hphase.symm.trans hfound
        exact hearly
    have hput : ∀ {change act}, phase.Early → (∀ outbox, Outbox.step s.outbox act = some outbox →
        outbox = s.outbox.turn name (.control change.frame) late) →
        s.put name change late act = some t → ∃ u next, t = State.at_ u name next ∧ u.ops = s.ops ∧
          ((∃ change, next = .told change) ∨
            (∃ answer, next = .answered answer ∧ answer.changes = true) ∨
            (t.subscriptions = s.subscriptions ∧ control s t = [] ∧
              ∀ found, s.ops name = some found → found.Early)) := by
      intro change act hphase hact hput
      obtain ⟨outbox, -, ⟨rfl, -⟩ | ⟨rfl, hcontrol, -⟩ | ⟨e, rfl, hcontrol⟩⟩ := put_cases hact hput
      · exact ⟨_, _, rfl, rfl, .inl ⟨change, rfl⟩⟩
      · exact ⟨_, _, rfl, rfl, .inr (.inr ⟨rfl, hcontrol, hearly hphase⟩)⟩
      · exact ⟨_, _, rfl, rfl, .inr (.inr ⟨rfl, hcontrol, hearly hphase⟩)⟩
    cases phase with
    | waits | answered => cases hnext
    | looks subscription =>
      simp only [State.next] at hnext
      split at hnext <;> cases hnext <;>
        exact ⟨_, _, rfl, rfl, .inr (.inr ⟨rfl, control_of_outbox_eq rfl, hearly trivial⟩)⟩
    | asks change | tells change =>
      simp only [State.next] at hnext
      split_ifs at hnext <;> cases hnext <;>
        exact ⟨_, _, rfl, rfl, .inr (.inr ⟨rfl, control_of_outbox_eq rfl, hearly trivial⟩)⟩
    | puts change =>
      exact hput trivial (fun _ hstep => turn_of_putControl hstep) hnext
    | queues change =>
      exact hput trivial (fun _ hstep => turn_of_wake (h.queued name change hphase) hstep) hnext
    | told change =>
      cases hnext
      exact ⟨_, _, rfl, rfl, .inr (.inl ⟨_, rfl, (h.sound name _ change hphase rfl).answer⟩)⟩
  | outbox | unwritable => cases hname

end Agrees

/-- The other operations are where they were. -/
theorem ops_of_ne {engine : Engine Regex} {act : Act} {name : ℕ} (hname : act.name ≠ some name)
    (h : Agrees opening s told) (hstep : step engine s act = some t) : t.ops name = s.ops name := by
  cases hact : act.name with
  | some other =>
    obtain ⟨u, phase, rfl, hops, -⟩ := h.own hact hstep
    have hne : name ≠ other := fun heq => hname (heq ▸ hact)
    rw [← hops]
    exact Function.update_of_ne hne _ _
  | none =>
    cases act with
    | outbox act =>
      simp only [step] at hstep
      split_ifs at hstep
      obtain ⟨outbox, -, rfl⟩ := Option.map_eq_some_iff.1 hstep
      rfl
    | unwritable =>
      cases hstep
      rfl
    | subscribeName | subscribe | unsubscribe | lock | next => cases hact

/-! ### Every run -/

/-- No step of the operation changed the set, or let a frame into the control lane. -/
def Untouched (name : ℕ) (past : List (State Regex × Act × State Regex)) : Prop :=
  ∀ u act v, (u, act, v) ∈ past → act.name = some name →
    v.subscriptions = u.subscriptions ∧ control u v = []

/-- What holds of a state and of all that led to it. -/
structure Kept (opening : Multiset String) (s : State Regex)
    (past : List (State Regex × Act × State Regex)) : Prop where
  agrees : ∃ told, letIn past = told.map Tell.frame ∧ Agrees opening s told
  untouched : ∀ name, (∀ change, s.ops name ≠ some (.told change)) →
    (∀ answer, s.ops name = some (.answered answer) → answer.changes = false) → Untouched name past

theorem Kept.step {past : List (State Regex × Act × State Regex)} (h : Kept opening s past)
    {engine : Engine Regex} {act : Act} (hstep : step engine s act = some t) :
    Kept opening t (past ++ [(s, act, t)]) := by
  obtain ⟨told, htold, hagrees⟩ := h.agrees
  constructor
  · obtain ⟨more, hmore, hnext⟩ := hagrees.step hstep
    exact ⟨told ++ more, by rw [letIn_concat, htold, hmore, List.map_append], hnext⟩
  · intro name hnottold hanswered
    by_cases hname : act.name = some name
    · obtain ⟨u, phase, ht, hops, hcases⟩ := hagrees.own hname hstep
      have hphase : t.ops name = some phase := by
        rw [ht]
        exact Function.update_self ..
      rcases hcases with ⟨change, rfl⟩ | ⟨answer, rfl, hchanges⟩ | ⟨hsubscriptions, hcontrol, hearly⟩
      · exact absurd hphase (hnottold change)
      · exact nomatch (hanswered answer hphase).symm.trans hchanges
      · have hbefore := h.untouched name (fun change hop => hearly _ hop)
          (fun answer hop => (hearly _ hop).elim)
        intro v found w hmem hfound
        rcases List.mem_append.1 hmem with hmem | hmem
        · exact hbefore v found w hmem hfound
        · cases List.mem_singleton.1 hmem
          exact ⟨hsubscriptions, hcontrol⟩
    · have hop := ops_of_ne hname hagrees hstep
      have hbefore := h.untouched name (hop ▸ hnottold) (hop ▸ hanswered)
      intro v found w hmem hfound
      rcases List.mem_append.1 hmem with hmem | hmem
      · exact hbefore v found w hmem hfound
      · cases List.mem_singleton.1 hmem
        exact absurd hfound hname

theorem kept_of_run {engine : Engine Regex} {receives : Bool} {opening : Subscriptions Regex}
    {acts : List Act} (hrun : Machine.run (step engine) (start receives opening) acts = some s) :
    Kept (texts opening) s (Machine.transitions (step engine) (start receives opening) acts) := by
  have hstart : Kept (texts opening) (start receives opening) [] :=
    ⟨⟨[], rfl, agrees_start receives opening⟩, fun _ _ _ _ _ _ h => nomatch h⟩
  have h := Machine.run_history (P := Kept (texts opening))
    (fun _ _ _ _ h hstep => h.step hstep) hstart hrun
  rwa [List.nil_append] at h

end LcmBus.Rules
