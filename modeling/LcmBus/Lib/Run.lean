import Mathlib

/-!
# Runs of a state machine

Two kinds of machine over a state type `σ` and an input type `ε`.

* A *guarded* machine is a function `step : σ → ε → Option σ`: the input names the step that is
  taken, and `none` says it cannot be taken there.  `run step s es` takes the steps `es` one
  behind the other; `run_invariant` is the induction over it, and `Each` says that a condition
  holds of every step of a run.  `transitions` is all that a run went through, and `run_history` the
  induction over that.
* An *answering* machine is a function `step : σ → ε → ρ × σ`: it takes every input and answers
  it.  `answers step s es` are its answers and `final step s es` the state behind them; `total`
  weighs its inputs, and `final_balance` holds what came in against what went out, as
  `final_conserves` does for what came in and went out in order.  `peak` is the most that a quantity
  comes to.
-/

namespace Machine

variable {σ ε ρ : Type*}

/-! ### Guarded machines -/

/-- The steps `es`, each one possible where it is taken. -/
def run (step : σ → ε → Option σ) : σ → List ε → Option σ
  | s, [] => some s
  | s, e :: es => (step s e).bind fun t => run step t es

@[simp] theorem run_nil (step : σ → ε → Option σ) (s : σ) : run step s [] = some s := rfl

theorem run_cons (step : σ → ε → Option σ) (s : σ) (e : ε) (es : List ε) :
    run step s (e :: es) = (step s e).bind fun t => run step t es := rfl

theorem run_cons_eq_some {step : σ → ε → Option σ} {s u : σ} {e : ε} {es : List ε} :
    run step s (e :: es) = some u ↔ ∃ t, step s e = some t ∧ run step t es = some u := by
  simp [run_cons, Option.bind_eq_some_iff]

theorem run_append (step : σ → ε → Option σ) (s : σ) (es fs : List ε) :
    run step s (es ++ fs) = (run step s es).bind fun t => run step t fs := by
  induction es generalizing s with
  | nil => rfl
  | cons e es ih =>
    rw [List.cons_append, run_cons, run_cons, Option.bind_assoc]
    exact congrArg (Option.bind (step s e)) (funext ih)

theorem run_append_eq_some {step : σ → ε → Option σ} {s u : σ} {es fs : List ε} :
    run step s (es ++ fs) = some u ↔ ∃ t, run step s es = some t ∧ run step t fs = some u := by
  simp [run_append, Option.bind_eq_some_iff]

/-- What holds at the start and is kept by every step holds behind every run. -/
theorem run_invariant {step : σ → ε → Option σ} {P : σ → Prop}
    (keeps : ∀ s e t, P s → step s e = some t → P t) {s t : σ} {es : List ε}
    (hs : P s) (hrun : run step s es = some t) : P t := by
  induction es generalizing s with
  | nil => cases hrun; exact hs
  | cons e es ih =>
    obtain ⟨u, hu, hrest⟩ := run_cons_eq_some.1 hrun
    exact ih (keeps s e u hs hu) hrest

/-- `C` allows each step of the run where it is taken. -/
def Each (step : σ → ε → Option σ) (C : σ → ε → Prop) : σ → List ε → Prop
  | _, [] => True
  | s, e :: es => C s e ∧ ∀ t, step s e = some t → Each step C t es

@[simp] theorem each_nil (step : σ → ε → Option σ) (C : σ → ε → Prop) (s : σ) :
    Each step C s [] := trivial

/-- Whether a condition holds of every step of a run is decided by taking the run. -/
instance Each.decidable (step : σ → ε → Option σ) (C : σ → ε → Prop) [∀ s e, Decidable (C s e)] :
    ∀ s es, Decidable (Each step C s es)
  | _, [] => isTrue trivial
  | s, e :: es =>
    match h : step s e with
    | none => decidable_of_iff (C s e) ⟨fun hc => ⟨hc, by simp [h]⟩, And.left⟩
    | some t =>
      have := Each.decidable step C t es
      decidable_of_iff (C s e ∧ Each step C t es)
        ⟨fun hc => ⟨hc.1, fun u hu => Option.some.inj (h.symm.trans hu) ▸ hc.2⟩,
          fun hc => ⟨hc.1, hc.2 t h⟩⟩

theorem Each.append_right {step : σ → ε → Option σ} {C : σ → ε → Prop} {s t : σ} {es fs : List ε}
    (h : Each step C s (es ++ fs)) (hrun : run step s es = some t) : Each step C t fs := by
  induction es generalizing s with
  | nil => cases hrun; exact h
  | cons e es ih =>
    obtain ⟨u, hu, hrest⟩ := run_cons_eq_some.1 hrun
    exact ih (h.2 u hu) hrest

theorem Each.append_left {step : σ → ε → Option σ} {C : σ → ε → Prop} {s : σ} {es fs : List ε}
    (h : Each step C s (es ++ fs)) : Each step C s es := by
  induction es generalizing s with
  | nil => trivial
  | cons e es ih => exact ⟨h.1, fun t ht => ih (h.2 t ht)⟩

/-- What the steps that `C` allows keep holds behind every run of them. -/
theorem run_invariant_of_each {step : σ → ε → Option σ} {P : σ → Prop} {C : σ → ε → Prop}
    (keeps : ∀ s e t, P s → C s e → step s e = some t → P t) {s t : σ} {es : List ε}
    (hs : P s) (hes : Each step C s es) (hrun : run step s es = some t) : P t := by
  induction es generalizing s with
  | nil => cases hrun; exact hs
  | cons e es ih =>
    obtain ⟨u, hu, hrest⟩ := run_cons_eq_some.1 hrun
    exact ih (keeps s e u hs hes.1 hu) (hes.2 u hu) hrest

/-- Where no step raises a quantity and each one of a kind lowers it, a run has no more steps of
that kind than it lowers the quantity by. -/
theorem run_count_add_le {step : σ → ε → Option σ} {P : σ → Prop} {f : σ → ℕ} {q : ε → Bool}
    (keeps : ∀ s e t, P s → step s e = some t → P t ∧ f t ≤ f s ∧ (q e = true → f t < f s))
    {s t : σ} {es : List ε} (hs : P s) (hrun : run step s es = some t) :
    es.countP q + f t ≤ f s := by
  induction es generalizing s with
  | nil => cases hrun; simp
  | cons e es ih =>
    obtain ⟨u, hu, hrest⟩ := run_cons_eq_some.1 hrun
    obtain ⟨hP, hle, hlt⟩ := keeps s e u hs hu
    have hrest' := ih hP hrest
    cases hq : q e with
    | false => rw [List.countP_cons_of_neg (by simp [hq])]; omega
    | true =>
      have := hlt hq
      rw [List.countP_cons_of_pos hq]
      omega

/-- So it is where only the steps that `C` allows do so, in a run of them. -/
theorem run_count_add_le_of_each {step : σ → ε → Option σ} {P : σ → Prop} {C : σ → ε → Prop} {f : σ → ℕ}
    {q : ε → Bool} (keeps : ∀ s e t, P s → C s e → step s e = some t →
      P t ∧ f t ≤ f s ∧ (q e = true → f t < f s))
    {s t : σ} {es : List ε} (hs : P s) (hes : Each step C s es) (hrun : run step s es = some t) :
    es.countP q + f t ≤ f s := by
  induction es generalizing s with
  | nil => cases hrun; simp
  | cons e es ih =>
    obtain ⟨u, hu, hrest⟩ := run_cons_eq_some.1 hrun
    obtain ⟨hP, hle, hlt⟩ := keeps s e u hs hes.1 hu
    have hrest' := ih hP (hes.2 u hu) hrest
    cases hq : q e with
    | false => rw [List.countP_cons_of_neg (by simp [hq])]; omega
    | true =>
      have := hlt hq
      rw [List.countP_cons_of_pos hq]
      omega

/-! ### The past of a run -/

/-- The transitions of a run, each one with the state before it and the one behind it. -/
def transitions (step : σ → ε → Option σ) : σ → List ε → List (σ × ε × σ)
  | _, [] => []
  | s, e :: es =>
    match step s e with
    | none => []
    | some t => (s, e, t) :: transitions step t es

@[simp] theorem transitions_nil (step : σ → ε → Option σ) (s : σ) : transitions step s [] = [] := rfl

theorem transitions_cons {step : σ → ε → Option σ} {s t : σ} {e : ε} (h : step s e = some t)
    (es : List ε) : transitions step s (e :: es) = (s, e, t) :: transitions step t es := by
  rw [transitions, h]

theorem transitions_append {step : σ → ε → Option σ} {s t : σ} {es : List ε}
    (hrun : run step s es = some t) (fs : List ε) :
    transitions step s (es ++ fs) = transitions step s es ++ transitions step t fs := by
  induction es generalizing s with
  | nil => cases hrun; rfl
  | cons e es ih =>
    obtain ⟨u, hu, hrest⟩ := run_cons_eq_some.1 hrun
    rw [List.cons_append, transitions_cons hu, transitions_cons hu, ih hrest, List.cons_append]

/-- What a run went through is of its inputs. -/
theorem mem_of_mem_transitions {step : σ → ε → Option σ} {s : σ} {es : List ε} {entry : σ × ε × σ}
    (h : entry ∈ transitions step s es) : entry.2.1 ∈ es := by
  induction es generalizing s with
  | nil => cases h
  | cons e es ih =>
    rw [transitions] at h
    split at h
    · cases h
    · rcases List.mem_cons.1 h with rfl | h
      · exact List.mem_cons_self
      · exact List.mem_cons_of_mem _ (ih h)

/-- What holds of the start and no past, and is kept by every step with its past, holds behind every
run of all that is in its past. -/
theorem run_history {step : σ → ε → Option σ} {P : σ → List (σ × ε × σ) → Prop}
    (keeps : ∀ s past e t, P s past → step s e = some t → P t (past ++ [(s, e, t)])) {s t : σ}
    {es : List ε} {past : List (σ × ε × σ)} (hs : P s past) (hrun : run step s es = some t) :
    P t (past ++ transitions step s es) := by
  induction es generalizing s past with
  | nil => cases hrun; simpa using hs
  | cons e es ih =>
    obtain ⟨u, hu, hrest⟩ := run_cons_eq_some.1 hrun
    rw [transitions_cons hu, ← List.singleton_append, ← List.append_assoc]
    exact ih (keeps s past e u hs hu) hrest

/-- So does what only the steps that `C` allows keep, behind a run of them. -/
theorem run_history_of_each {step : σ → ε → Option σ} {P : σ → List (σ × ε × σ) → Prop}
    {C : σ → ε → Prop}
    (keeps : ∀ s past e t, P s past → C s e → step s e = some t → P t (past ++ [(s, e, t)])) {s t : σ}
    {es : List ε} {past : List (σ × ε × σ)} (hs : P s past) (hes : Each step C s es)
    (hrun : run step s es = some t) : P t (past ++ transitions step s es) := by
  induction es generalizing s past with
  | nil => cases hrun; simpa using hs
  | cons e es ih =>
    obtain ⟨u, hu, hrest⟩ := run_cons_eq_some.1 hrun
    rw [transitions_cons hu, ← List.singleton_append, ← List.append_assoc]
    exact ih (keeps s past e u hs hes.1 hu) (hes.2 u hu) hrest

/-! ### Answering machines -/

/-- The state behind the inputs `es`. -/
def final (step : σ → ε → ρ × σ) : σ → List ε → σ
  | s, [] => s
  | s, e :: es => final step (step s e).2 es

/-- The answer to each of the inputs `es`. -/
def answers (step : σ → ε → ρ × σ) : σ → List ε → List ρ
  | _, [] => []
  | s, e :: es => (step s e).1 :: answers step (step s e).2 es

@[simp] theorem final_nil (step : σ → ε → ρ × σ) (s : σ) : final step s [] = s := rfl

@[simp] theorem final_cons (step : σ → ε → ρ × σ) (s : σ) (e : ε) (es : List ε) :
    final step s (e :: es) = final step (step s e).2 es := rfl

@[simp] theorem answers_nil (step : σ → ε → ρ × σ) (s : σ) : answers step s [] = [] := rfl

@[simp] theorem answers_cons (step : σ → ε → ρ × σ) (s : σ) (e : ε) (es : List ε) :
    answers step s (e :: es) = (step s e).1 :: answers step (step s e).2 es := rfl

@[simp] theorem length_answers (step : σ → ε → ρ × σ) (s : σ) (es : List ε) :
    (answers step s es).length = es.length := by
  induction es generalizing s with
  | nil => rfl
  | cons e es ih => simp [ih]

theorem final_append (step : σ → ε → ρ × σ) (s : σ) (es fs : List ε) :
    final step s (es ++ fs) = final step (final step s es) fs := by
  induction es generalizing s with
  | nil => rfl
  | cons e es ih => exact ih _

theorem final_concat (step : σ → ε → ρ × σ) (s : σ) (es : List ε) (e : ε) :
    final step s (es ++ [e]) = (step (final step s es) e).2 := by
  rw [final_append, final_cons, final_nil]

theorem answers_append (step : σ → ε → ρ × σ) (s : σ) (es fs : List ε) :
    answers step s (es ++ fs) = answers step s es ++ answers step (final step s es) fs := by
  induction es generalizing s with
  | nil => rfl
  | cons e es ih => simp [ih]

/-- What holds at the start and is kept by every input holds behind all of them. -/
theorem final_invariant {step : σ → ε → ρ × σ} {P : σ → Prop}
    (keeps : ∀ s e, P s → P (step s e).2) {s : σ} (es : List ε) (hs : P s) :
    P (final step s es) := by
  induction es generalizing s with
  | nil => exact hs
  | cons e es ih => exact ih (keeps s e hs)

/-- What each allowed input keeps, and every answer to one has, every answer of a run has. -/
theorem answers_invariant {step : σ → ε → ρ × σ} {P : σ → Prop} {C : ε → Prop} {Q : ρ → Prop}
    (keeps : ∀ s e, P s → C e → Q (step s e).1 ∧ P (step s e).2) {s : σ} (es : List ε) (hs : P s)
    (hes : ∀ e ∈ es, C e) : ∀ r ∈ answers step s es, Q r := by
  induction es generalizing s with
  | nil => exact nofun
  | cons e es ih =>
    obtain ⟨hanswer, hnext⟩ := keeps s e hs (hes e (List.mem_cons_self ..))
    rw [answers_cons]
    exact List.forall_mem_cons.2
      ⟨hanswer, ih hnext fun e' he' => hes e' (List.mem_cons_of_mem _ he')⟩

/-- What the inputs of a run come to, each one weighed in the state it is taken in. -/
def total (step : σ → ε → ρ × σ) (weight : σ → ε → ℕ) : σ → List ε → ℕ
  | _, [] => 0
  | s, e :: es => weight s e + total step weight (step s e).2 es

/-- Where every step balances what comes in and what goes out, a run does. -/
theorem final_balance {step : σ → ε → ρ × σ} {P : σ → Prop} (f : σ → ℕ) (into out : σ → ε → ℕ)
    (keeps : ∀ s e, P s → P (step s e).2)
    (balance : ∀ s e, P s → f (step s e).2 + out s e = f s + into s e) {s : σ} (es : List ε)
    (hs : P s) : f (final step s es) + total step out s es = f s + total step into s es := by
  induction es generalizing s with
  | nil => rfl
  | cons e es ih =>
    have hstep := balance s e hs
    have hrest := ih (keeps s e hs)
    rw [final_cons, total, total]
    omega

/-- Where every step conserves what it takes in and what it gives out, a run does: what was there,
with all that came in behind it, is all that went out, with what is there behind it. -/
theorem final_conserves {β : Type*} {step : σ → ε → ρ × σ} (view : σ → List β)
    (into out : ρ → List β)
    (conserves : ∀ s e, view s ++ into (step s e).1 = out (step s e).1 ++ view (step s e).2)
    (s : σ) (es : List ε) :
    view s ++ (answers step s es).flatMap into =
      (answers step s es).flatMap out ++ view (final step s es) := by
  induction es generalizing s with
  | nil => simp
  | cons e es ih =>
    rw [answers_cons, List.flatMap_cons, List.flatMap_cons, final_cons, ← List.append_assoc,
      conserves s e, List.append_assoc, ih, List.append_assoc]

/-- The most that a quantity comes to over a run, its start and its end with it. -/
def peak (step : σ → ε → ρ × σ) (f : σ → ℕ) : σ → List ε → ℕ
  | s, [] => f s
  | s, e :: es => max (f s) (peak step f (step s e).2 es)

/-- What is kept by every step below a peak holds behind a run that stays below it. -/
theorem final_invariant_of_peak {step : σ → ε → ρ × σ} {P : σ → Prop} (f : σ → ℕ) {q : ℕ}
    (keeps : ∀ s e, P s → f s ≤ q → P (step s e).2) {s : σ} (es : List ε) (hs : P s)
    (hpeak : peak step f s es ≤ q) : P (final step s es) := by
  induction es generalizing s with
  | nil => exact hs
  | cons e es ih =>
    obtain ⟨hle, hrest⟩ := max_le_iff.1 hpeak
    exact ih (keeps s e hs hle) hrest

/-- A quantity that no input lowers is not lowered by a run. -/
theorem le_final {step : σ → ε → ρ × σ} {f : σ → ℕ} (grows : ∀ s e, f s ≤ f (step s e).2)
    (s : σ) (es : List ε) : f s ≤ f (final step s es) := by
  induction es generalizing s with
  | nil => exact le_rfl
  | cons e es ih => exact (grows s e).trans (ih _)

end Machine
