import LcmBus.Bus.Subscriptions

/-!
# Names, as a relay reads them

What `escaped` of `bus.rs` makes of a name is a pattern that stands for that name alone.

* `literal`: the text that a pattern stands for, where each character of it stands for one;
* `literal_escaped`: the pattern of a name stands for the name;
* `Engine.ReadsLiterals`: what is asked of the engine of a relay;
* `selects_as_told`: a relay that holds the rules of a client selects what the client does;
* `filter_remove`: what taking a rule back leaves.
-/

namespace LcmBus

/-- The characters that a pattern does not take for themselves. -/
def metacharacters : List Char := "\\.+*?()|[]\x7b\x7d^$".toList

/-- A pattern as a text: a backslash before one of those characters makes it stand for itself, and
any other character stands for itself as it is. -/
def literal : List Char → Option (List Char)
  | [] => some []
  | '\\' :: c :: pattern => if c ∈ metacharacters then (literal pattern).map (c :: ·) else none
  | c :: pattern => if c ∈ metacharacters then none else (literal pattern).map (c :: ·)

theorem literal_backslash {c : Char} (h : c ∈ metacharacters) (pattern : List Char) :
    literal ('\\' :: c :: pattern) = (literal pattern).map (c :: ·) := by
  rw [literal, if_pos h]

theorem literal_cons {c : Char} (h : c ∉ metacharacters) (pattern : List Char) :
    literal (c :: pattern) = (literal pattern).map (c :: ·) := by
  rw [literal, if_neg h]
  rintro _ _ rfl
  exact absurd (by decide) h

/-- The pattern of a name stands for the name. -/
theorem literal_escaped (name : String) : literal (escaped name).toList = some name.toList := by
  change literal (String.ofList (name.toList.flatMap fun c =>
    if c ∈ metacharacters then ['\\', c] else [c])).toList = some name.toList
  rw [String.toList_ofList]
  induction name.toList with
  | nil => rfl
  | cons c text ih =>
    rw [List.flatMap_cons]
    by_cases hc : c ∈ metacharacters
    · rw [if_pos hc, List.cons_append, List.cons_append, List.nil_append, literal_backslash hc, ih,
        Option.map_some]
    · rw [if_neg hc, List.cons_append, List.nil_append, literal_cons hc, ih, Option.map_some]

theorem escaped_injective : Function.Injective escaped := fun name other h => by
  have hliteral := congrArg (fun pattern => literal pattern.toList) h
  simp only [literal_escaped] at hliteral
  exact String.toList_inj.1 (Option.some.inj hliteral)

variable {Regex : Type}

/-- An engine builds the pattern of a name, in its group and anchored at each end, and finds that it
matches the text the pattern stands for, and no other. -/
structure Engine.ReadsLiterals (engine : Engine Regex) : Prop where
  builds : ∀ pattern text : String, literal pattern.toList = some text.toList →
    checkChannel text channelMax = .ok () →
    ∃ compiled, engine.build ("^(?:" ++ pattern ++ ")$") = .ok compiled
  matches_iff : ∀ pattern text : String, literal pattern.toList = some text.toList →
    ∀ compiled, engine.build ("^(?:" ++ pattern ++ ")$") = .ok compiled →
    ∀ channel, engine.isMatch compiled channel = some (decide (channel = text))

/-- Whether a rule selects a channel. -/
def Rule.Selects (engine : Engine Regex) (channel : String) : Rule Regex → Prop
  | .name own => own = channel
  | .pattern _ compiled => engine.isMatch compiled channel = some true

namespace Subscriptions

variable {engine : Engine Regex} {channel : String}

theorem selects_iff {s : Subscriptions Regex} :
    s.selects engine channel = true ↔ ∃ rule ∈ s.rules, rule.Selects engine channel := by
  rw [selects, List.any_eq_true]
  refine exists_congr fun rule => and_congr_right fun _ => ?_
  cases rule with
  | name name => simp [Rule.Selects]
  | pattern text compiled =>
    rcases h : engine.isMatch compiled channel with _ | _ | _ <;> simp [Rule.Selects, h]

/-- The rule that a relay builds of the pattern of a name selects the channel of that name, and no
other. -/
theorem selects_of_check_escaped (h : engine.ReadsLiterals) {name : String} {held : Rule Regex}
    (hheld : check engine (escaped name) = .ok held) :
    held.Selects engine channel ↔ name = channel := by
  obtain ⟨compiled, hbuild, rfl⟩ := of_check hheld
  rw [Rule.Selects, h.matches_iff _ name (literal_escaped name) compiled hbuild, Option.some_inj,
    decide_eq_true_iff, eq_comm]

/-- A rule that `add_name` or `add` takes. -/
def Made (engine : Engine Regex) (rule : Rule Regex) : Prop :=
  (∃ name, checkName name = .ok rule) ∨ ∃ pattern, check engine pattern = .ok rule

/-- What is held of a rule, as a relay was told it. -/
def Holds (engine : Engine Regex) (rule held : Rule Regex) : Prop :=
  check engine rule.forARelay = .ok held

theorem Holds.selects_iff (h : engine.ReadsLiterals) {rule held : Rule Regex}
    (hmade : Made engine rule) (hheld : Holds engine rule held) :
    held.Selects engine channel ↔ rule.Selects engine channel := by
  rcases hmade with ⟨name, hname⟩ | ⟨pattern, hpattern⟩
  · obtain ⟨-, rfl⟩ := of_checkName hname
    exact selects_of_check_escaped h hheld
  · obtain ⟨compiled, hbuild, rfl⟩ := of_check hpattern
    rw [show held = _ from (Except.ok.inj (hheld.symm.trans hpattern))]

/-- A relay that holds what it was told of each rule of a client selects what the client does. -/
theorem selects_as_told (h : engine.ReadsLiterals) {s held : Subscriptions Regex}
    (hmade : ∀ rule ∈ s.rules, Made engine rule)
    (hheld : List.Forall₂ (Holds engine) s.rules held.rules) (channel : String) :
    held.selects engine channel = s.selects engine channel := by
  rw [Bool.eq_iff_iff, Subscriptions.selects_iff, Subscriptions.selects_iff]
  generalize s.rules = rules at hmade hheld
  generalize held.rules = heldRules at hheld
  induction hheld with
  | nil => rfl
  | cons hrule _ ih =>
    rw [List.forall_mem_cons] at hmade
    simp only [List.exists_mem_cons_iff, hrule.selects_iff h hmade.1, ih hmade.2]

/-- What one subscription takes out of a set has its text. -/
theorem filter_remove (s : Subscriptions Regex) {subscription other : String}
    (h : subscription ≠ other) :
    (s.remove subscription).2.rules.filter (fun rule => rule.text = other) =
      s.rules.filter (fun rule => rule.text = other) := by
  rcases s with ⟨rules⟩
  dsimp only [remove]
  induction rules with
  | nil => rfl
  | cons rule rules ih =>
    by_cases hrule : rule.text = subscription
    · rw [List.eraseP_cons_of_pos (by simpa using hrule), List.filter_cons_of_neg]
      simpa [hrule] using h
    · rw [List.eraseP_cons_of_neg (by simpa using hrule), List.filter_cons, List.filter_cons, ih]

/-- A name that is told to a relay selects its channel there and no other, as it does where it is
told from, and no name is taken back with another. -/
theorem stands_for_itself_alone (h : engine.ReadsLiterals) :
    (∀ name : String, literal (escaped name).toList = some name.toList) ∧
    Function.Injective escaped ∧
    (∀ (name : String) (rule : Rule Regex), checkName name = .ok rule →
      ∃ held, check engine rule.forARelay = .ok held ∧ ∀ channel,
        selects engine ⟨[held]⟩ channel = selects engine ⟨[rule]⟩ channel ∧
        (selects engine ⟨[held]⟩ channel = true ↔ channel = name)) ∧
    ∀ (s : Subscriptions Regex) (name other : String), name ≠ other →
      (s.remove name).2.rules.filter (fun rule => rule.text = other) =
        s.rules.filter (fun rule => rule.text = other) ∧
      (s.remove (escaped name)).2.rules.filter (fun rule => rule.text = escaped other) =
        s.rules.filter (fun rule => rule.text = escaped other) := by
  refine ⟨literal_escaped, escaped_injective, fun name rule hrule => ?_, fun s name other hne =>
    ⟨s.filter_remove hne, s.filter_remove fun heq => hne (escaped_injective heq)⟩⟩
  obtain ⟨hname, rfl⟩ := of_checkName hrule
  obtain ⟨compiled, hbuild⟩ := h.builds (escaped name) name (literal_escaped name) hname
  have hheld : check engine (escaped name) = .ok (.pattern (escaped name) compiled) := by
    rw [check, hbuild]
  have hmade : ∀ rule ∈ [Rule.name name], Made engine rule :=
    List.forall_mem_singleton.2 (.inl ⟨name, hrule⟩)
  have htold : List.Forall₂ (Holds engine) [Rule.name name] [.pattern (escaped name) compiled] :=
    .cons hheld .nil
  refine ⟨.pattern (escaped name) compiled, hheld, fun channel => ⟨?_, ?_⟩⟩
  · exact selects_as_told h hmade htold channel
  · rw [selects_iff, eq_comm (a := channel), ← selects_of_check_escaped h hheld]
    exact ⟨fun ⟨_, hmem, hselects⟩ => List.mem_singleton.1 hmem ▸ hselects,
      fun hselects => ⟨_, List.mem_singleton_self _, hselects⟩⟩

end Subscriptions

/-- An engine of nothing but the patterns that are literal. -/
def literalEngine : Engine String where
  build pattern :=
    match (pattern.toList.dropPrefix? "^(?:".toList).bind fun rest => literal rest.dropLast.dropLast with
    | some text => .ok (String.ofList text)
    | none => .error "a pattern that is not literal"
  isMatch compiled channel := some (channel = compiled)

theorem literalEngine_build {pattern text : String} (h : literal pattern.toList = some text.toList) :
    literalEngine.build ("^(?:" ++ pattern ++ ")$") = .ok text := by
  have hanchored : ("^(?:" ++ pattern ++ ")$").toList.dropPrefix? "^(?:".toList =
      some (pattern.toList ++ [')', '$']) := by
    rw [String.toList_append, String.toList_append, List.append_assoc]
    exact List.dropPrefix?_append_of_beq _ (by simp)
  have hrest : (pattern.toList ++ [')', '$']).dropLast.dropLast = pattern.toList := by
    simp
  simp only [literalEngine, hanchored, Option.bind_some, hrest, h, String.ofList_toList]

theorem literalEngine_reads : literalEngine.ReadsLiterals where
  builds _ text h _ := ⟨text, literalEngine_build h⟩
  matches_iff _ text h compiled hbuild channel := by
    rw [literalEngine_build h] at hbuild
    cases hbuild
    rfl

theorem stands_for_itself_alone_of_sensor : ∃ held,
    Subscriptions.check literalEngine "SENSOR\\.GPS" = .ok held ∧
    Subscriptions.selects literalEngine ⟨[held]⟩ "SENSOR.GPS" = true ∧
    Subscriptions.selects literalEngine ⟨[held]⟩ "SENSORxGPS" = false := by
  obtain ⟨-, -, hselects, -⟩ := Subscriptions.stands_for_itself_alone literalEngine_reads
  obtain ⟨held, hcheck, h⟩ := hselects "SENSOR.GPS" (.name "SENSOR.GPS") (by decide)
  exact ⟨held, hcheck, (h _).2.2 rfl, Bool.eq_false_iff.2 fun hmatch => by simpa using (h _).2.1 hmatch⟩

end LcmBus
