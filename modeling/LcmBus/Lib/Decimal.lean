import Mathlib.Data.Nat.Notation
import Mathlib.Tactic.IntervalCases

/-!
# Numbers in decimal

* `value`: the number that a run of decimal digits is;
* `value_toDigits`: a number that is written out reads back;
* `not_mem_toDigits`, `head_toDigits`: what the digits of a number do not hold, and where no zero
  stands.
-/

namespace Decimal

/-- The number that a run of digits is.  No digit at all is no number. -/
def value (text : List Char) : Option ℕ :=
  if text ≠ [] ∧ text.all Char.isDigit then some (Nat.ofDigitChars 10 text 0) else none

@[simp] theorem value_toDigits (n : ℕ) : value (Nat.toDigits 10 n) = some n := by
  have hdigits : (Nat.toDigits 10 n).all Char.isDigit := List.all_eq_true.2 fun c hc =>
    Nat.isDigit_of_mem_toDigits (by omega) le_rfl hc
  rw [value, if_pos ⟨Nat.toDigits_ne_nil, hdigits⟩, Nat.ofDigitChars_ten_toDigits]

theorem not_mem_toDigits {c : Char} (h : c.isDigit = false) (n : ℕ) : c ∉ Nat.toDigits 10 n :=
  fun hc => by simp [Nat.isDigit_of_mem_toDigits (by omega) le_rfl hc] at h

/-- Zero apart, no number starts with a zero. -/
theorem head_toDigits {n : ℕ} (h : (Nat.toDigits 10 n).head? = some '0') : n = 0 := by
  induction n using Nat.strong_induction_on with
  | _ n ih =>
    by_cases hn : n < 10
    · rw [Nat.toDigits_of_lt_base hn] at h
      interval_cases n <;> first | rfl | (revert h; decide)
    · rw [Nat.toDigits_of_base_le (by omega) (by omega)] at h
      rw [List.head?_append, List.head?_eq_some_head Nat.toDigits_ne_nil, Option.some_or,
        ← List.head?_eq_some_head] at h
      have := ih (n / 10) (by omega) h
      omega

end Decimal
