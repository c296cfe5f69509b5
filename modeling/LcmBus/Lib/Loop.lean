import Mathlib

/-!
# Loops

A loop with no input: `turn : σ → σ × Option ρ` gives the state behind one turn, and what the loop
ended with where that turn was its last.

* `after turn n s` is `n` turns from `s`, or fewer where the loop ends;
* `after_invariant` is the induction over it, and `exists_end` the end of a loop whose turns lower a
  measure, each with a form for a turn that is known to be the last one or not;
* `Each` says that a condition holds at the head of each of the turns.
-/

namespace Loop

variable {σ ρ : Type*}

/-- `n` turns of a loop, or fewer where it ends. -/
def after (turn : σ → σ × Option ρ) : ℕ → σ → σ × Option ρ
  | 0, s => (s, none)
  | n + 1, s =>
    match turn s with
    | (t, none) => after turn n t
    | (t, some r) => (t, some r)

/-- `C` holds at the head of each of the first `n` turns. -/
def Each (turn : σ → σ × Option ρ) (C : σ → Prop) : ℕ → σ → Prop
  | 0, _ => True
  | n + 1, s => C s ∧ ((turn s).2 = none → Each turn C n (turn s).1)

variable {turn : σ → σ × Option ρ} {s t : σ} {r : ρ} {n : ℕ}

@[simp] theorem after_zero : after turn 0 s = (s, none) := rfl

theorem after_succ_of_none (h : turn s = (t, none)) : after turn (n + 1) s = after turn n t := by
  rw [after, h]

theorem after_succ_of_some (h : turn s = (t, some r)) : after turn (n + 1) s = (t, some r) := by
  rw [after, h]

theorem after_one_of_none (h : (turn s).2 = none) : after turn 1 s = ((turn s).1, none) :=
  after_succ_of_none (Prod.ext rfl h)

/-- What holds at the start and is kept by every turn holds behind all of them; at the end of the
loop, that which its last turn gives. -/
theorem after_invariant {P : σ → Prop} {Q : σ → ρ → Prop} {C : σ → Prop}
    (keeps : ∀ s t, P s → C s → turn s = (t, none) → P t)
    (ends : ∀ s t r, P s → C s → turn s = (t, some r) → Q t r) (hs : P s) (hC : Each turn C n s) :
    ((after turn n s).2 = none → P (after turn n s).1) ∧
      ∀ r, (after turn n s).2 = some r → Q (after turn n s).1 r := by
  induction n generalizing s with
  | zero => exact ⟨fun _ => hs, by simp⟩
  | succ n ih =>
    rcases hturn : turn s with ⟨t, _ | r⟩
    · rw [after_succ_of_none hturn]
      have hrest : Each turn C n t := by simpa [hturn] using hC.2
      exact ih (keeps s t hs hC.1 hturn) hrest
    · rw [after_succ_of_some hturn]
      refine ⟨by simp, fun r' hr' => ?_⟩
      cases hr'
      exact ends s t r hs hC.1 hturn

/-- The same, where each turn is known to be the last one or not. -/
theorem after_of_turn {P : σ → Prop} {Q : σ → ρ → Prop} {C : σ → Prop}
    (hturn : ∀ s, P s → C s →
      (∃ t, turn s = (t, none) ∧ P t) ∨ ∃ t r, turn s = (t, some r) ∧ Q t r)
    (hs : P s) (hC : Each turn C n s) :
    ((after turn n s).2 = none → P (after turn n s).1) ∧
      ∀ r, (after turn n s).2 = some r → Q (after turn n s).1 r := by
  refine after_invariant (fun s t hs hC hst => ?_) (fun s t r hs hC hst => ?_) hs hC
  · rcases hturn s hs hC with ⟨u, hu, hP⟩ | ⟨u, r, hu, -⟩ <;> rw [hst] at hu <;> cases hu
    exact hP
  · rcases hturn s hs hC with ⟨u, hu, -⟩ | ⟨u, r, hu, hQ⟩ <;> rw [hst] at hu <;> cases hu
    exact hQ

theorem each_true : Each turn (fun _ => True) n s := by
  induction n generalizing s with
  | zero => trivial
  | succ n ih => exact ⟨trivial, fun _ => ih⟩

/-- What every turn keeps may be used for what holds at the head of each of them. -/
theorem Each.imp {P C D : σ → Prop} (himp : ∀ s, P s → C s → D s)
    (keeps : ∀ s t, P s → turn s = (t, none) → P t) (hs : P s) (h : Each turn C n s) :
    Each turn D n s := by
  induction n generalizing s with
  | zero => trivial
  | succ n ih =>
    refine ⟨himp s hs h.1, fun hnone => ih (keeps s _ hs ?_) (h.2 hnone)⟩
    rw [← hnone]

/-- The turns of a loop that has not ended yet, and those behind them. -/
theorem after_add_of_none {m : ℕ} (h : after turn n s = (t, none)) :
    after turn (n + m) s = after turn m t := by
  induction n generalizing s with
  | zero =>
    cases h
    rw [Nat.zero_add]
  | succ n ih =>
    rw [Nat.succ_add]
    rcases hturn : turn s with ⟨u, _ | r'⟩
    · rw [after_succ_of_none hturn] at h ⊢
      exact ih h
    · rw [after_succ_of_some hturn] at h
      cases h

/-- Where every turn that is not the last lowers a measure, the loop ends. -/
theorem exists_end {P : σ → Prop} {f : σ → ℕ}
    (falls : ∀ s t, P s → turn s = (t, none) → P t ∧ f t < f s) (hs : P s) :
    ∃ n t r, after turn n s = (t, some r) := by
  induction hf : f s using Nat.strong_induction_on generalizing s with
  | _ m ih =>
    rcases hturn : turn s with ⟨t, _ | r⟩
    · obtain ⟨ht, hlt⟩ := falls s t hs hturn
      obtain ⟨n, u, r, hend⟩ := ih (f t) (hf ▸ hlt) ht rfl
      exact ⟨n + 1, u, r, (after_succ_of_none hturn).trans hend⟩
    · exact ⟨1, t, r, after_succ_of_some hturn⟩

/-- And it ends with that which its last turn gives. -/
theorem exists_end_of_turn {P : σ → Prop} {Q : σ → ρ → Prop} {f : σ → ℕ}
    (hturn : ∀ s, P s →
      (∃ t, turn s = (t, none) ∧ P t ∧ f t < f s) ∨ ∃ t r, turn s = (t, some r) ∧ Q t r)
    (hs : P s) : ∃ n t r, after turn n s = (t, some r) ∧ Q t r := by
  have hfalls : ∀ s t, P s → turn s = (t, none) → P t ∧ f t < f s := fun s t hs hst => by
    rcases hturn s hs with ⟨u, hu, hfalls⟩ | ⟨u, r, hu, -⟩ <;> rw [hst] at hu <;> cases hu
    exact hfalls
  obtain ⟨n, t, r, hend⟩ := exists_end hfalls hs
  have hlast := (after_of_turn (C := fun _ => True) (n := n)
    (fun s hs _ => (hturn s hs).imp_left fun ⟨t, hst, hP, _⟩ => ⟨t, hst, hP⟩) hs each_true).2 r
  rw [hend] at hlast
  exact ⟨n, t, r, hend, hlast rfl⟩

end Loop
