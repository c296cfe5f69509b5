import LcmBus.Wire.Basic

/-!
# Subscriptions

`Subscriptions` of `bus.rs`: what a client asks for, as names and as patterns.

* `Engine`: the regular expressions, which are not of this crate;
* `Rule`, `Subscriptions` and their operations under their names in the source;
* `escaped`: a name as a relay reads one.

The count of the patterns that gave up is not kept here.
-/

namespace LcmBus

/-- `impl Display for WireError`, of the two that a name can be refused with. -/
def WireError.display : WireError → String
  | .badChannel => "an empty channel name, or one with bytes a name cannot hold"
  | .channelTooLong len => s!"a channel name of {len} bytes is too long"
  | _ => ""

/-- What `fancy_regex` makes of a pattern, and what it says of a text: nothing, where it gave up. -/
structure Engine (Regex : Type) where
  build : String → Except String Regex
  isMatch : Regex → String → Option Bool

/-- An engine that refuses every pattern. -/
def noPatterns : Engine Unit := ⟨fun _ => .error "", fun _ _ => none⟩

/-- A subscription pattern the regex engine refuses. -/
structure BadPattern where
  pattern : String
  reason : String
  deriving DecidableEq, Repr

/-- A name, as a relay reads one: each character of it stands for itself. -/
def escaped (name : String) : String :=
  String.ofList (name.toList.flatMap fun c =>
    if c ∈ "\\.+*?()|[]\x7b\x7d^$".toList then ['\\', c] else [c])

/-- What one subscription selects. -/
inductive Rule (Regex : Type)
  | name (channel : String)
  | pattern (text : String) (compiled : Regex)
  deriving DecidableEq, Repr

variable {Regex : Type}

namespace Rule

/-- What the caller gave, which is what `remove` names. -/
def text : Rule Regex → String
  | .name channel => channel
  | .pattern regex _ => regex

/-- What a relay is given. -/
def forARelay : Rule Regex → String
  | .name channel => escaped channel
  | .pattern regex _ => regex

end Rule

structure Subscriptions (Regex : Type) where
  rules : List (Rule Regex)

namespace Subscriptions

/-- An empty set, which matches nothing. -/
def new : Subscriptions Regex := ⟨[]⟩

def checkName (channel : String) : Except BadPattern (Rule Regex) :=
  match checkChannel channel channelMax with
  | .ok () => .ok (.name channel)
  | .error e => .error ⟨channel, e.display⟩

def push (s : Subscriptions Regex) (checked : Rule Regex) : Subscriptions Regex :=
  ⟨s.rules ++ [checked]⟩

def addName (s : Subscriptions Regex) (channel : String) :
    Except BadPattern (Subscriptions Regex) := do
  return s.push (← checkName channel)

/-- A pattern that compiles, in a group and anchored at each end. -/
def check (engine : Engine Regex) (pattern : String) : Except BadPattern (Rule Regex) :=
  match engine.build ("^(?:" ++ pattern ++ ")$") with
  | .ok compiled => .ok (.pattern pattern compiled)
  | .error reason => .error ⟨pattern, reason⟩

def add (engine : Engine Regex) (s : Subscriptions Regex) (pattern : String) :
    Except BadPattern (Subscriptions Regex) := do
  return s.push (← check engine pattern)

/-- What a relay was told for the first subscription equal to this one. -/
def find (s : Subscriptions Regex) (subscription : String) : Option String :=
  (s.rules.find? fun rule => rule.text = subscription).map Rule.forARelay

/-- Removes the first subscription equal to this one. -/
def remove (s : Subscriptions Regex) (subscription : String) :
    Option String × Subscriptions Regex :=
  (s.find subscription, ⟨s.rules.eraseP fun rule => rule.text = subscription⟩)

/-- Whether any subscription selects `channel`. -/
def selects (engine : Engine Regex) (s : Subscriptions Regex) (channel : String) : Bool :=
  s.rules.any fun
    | .name name => name = channel
    | .pattern _ compiled => (engine.isMatch compiled channel).getD false

/-- What a relay is given for each subscription. -/
def forARelay (s : Subscriptions Regex) : List String := s.rules.map Rule.forARelay

theorem of_checkName {name : String} {rule : Rule Regex} (h : checkName name = .ok rule) :
    checkChannel name channelMax = .ok () ∧ rule = .name name := by
  unfold checkName at h
  split at h
  next hname =>
    cases h
    exact ⟨hname, rfl⟩
  next => cases h

theorem of_check {engine : Engine Regex} {pattern : String} {rule : Rule Regex}
    (h : check engine pattern = .ok rule) :
    ∃ compiled, engine.build ("^(?:" ++ pattern ++ ")$") = .ok compiled ∧
      rule = .pattern pattern compiled := by
  unfold check at h
  split at h
  next compiled hbuild =>
    cases h
    exact ⟨compiled, hbuild, rfl⟩
  next => cases h

theorem forARelay_push (s : Subscriptions Regex) (checked : Rule Regex) :
    (s.push checked).forARelay = s.forARelay ++ [checked.forARelay] := List.map_append

/-- A rule that is removed takes with it what a relay was told for it. -/
theorem forARelay_remove {s : Subscriptions Regex} {subscription held : String}
    (h : s.find subscription = some held) :
    (held :: (s.remove subscription).2.forARelay).Perm s.forARelay := by
  rcases s with ⟨rules⟩
  simp only [find, remove, forARelay] at h ⊢
  induction rules with
  | nil => cases h
  | cons rule rules ih =>
    by_cases hrule : rule.text = subscription
    · rw [List.find?_cons_of_pos (by simpa using hrule)] at h
      rw [List.eraseP_cons_of_pos (by simpa using hrule), List.map_cons, ← Option.some.inj h]
    · rw [List.find?_cons_of_neg (by simpa using hrule)] at h
      rw [List.eraseP_cons_of_neg (by simpa using hrule), List.map_cons, List.map_cons]
      exact (List.Perm.swap _ _ _).trans ((ih h).cons _)

end Subscriptions

end LcmBus
