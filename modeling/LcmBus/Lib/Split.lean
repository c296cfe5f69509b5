import Mathlib.Data.List.Basic

/-!
# Texts taken apart at a separator

* `once` and `rightOnce`: what stands before the first separator or the last one, and what after;
* `once_eq_some_iff` and `rightOnce_eq_some_iff`: the one way to take a text apart;
* `parts`: what stands before the first separator, with what follows it where there is one;
* `splitOn_pieces`: what a writer put between separators comes apart again.
-/

namespace Split

variable {α : Type*} [DecidableEq α] {sep : α} {l x y : List α}

/-- What stands before the first separator, and after it. -/
def once (sep : α) : List α → Option (List α × List α)
  | [] => none
  | a :: l => if a = sep then some ([], l) else (once sep l).map fun (x, y) => (a :: x, y)

/-- What stands before the last separator, and after it. -/
def rightOnce (sep : α) (l : List α) : Option (List α × List α) :=
  (once sep l.reverse).map fun (y, x) => (x.reverse, y.reverse)

@[simp] theorem once_cons_self (sep : α) (l : List α) : once sep (sep :: l) = some ([], l) :=
  if_pos rfl

theorem once_cons_of_ne {a : α} (h : a ≠ sep) (l : List α) :
    once sep (a :: l) = (once sep l).map fun (x, y) => (a :: x, y) := if_neg h

/-- What stands before the first separator, or all of it, and what follows the separator. -/
def parts (sep : α) (l : List α) : List α × Option (List α) :=
  match once sep l with
  | some (x, y) => (x, some y)
  | none => (l, none)

theorem once_append (h : sep ∉ x) : once sep (x ++ sep :: y) = some (x, y) := by
  induction x with
  | nil => exact once_cons_self sep y
  | cons a x ih =>
    rw [List.mem_cons, not_or] at h
    rw [List.cons_append, once_cons_of_ne (Ne.symm h.1), ih h.2, Option.map_some]

theorem of_once (h : once sep l = some (x, y)) : l = x ++ sep :: y ∧ sep ∉ x := by
  induction l generalizing x with
  | nil => simp [once] at h
  | cons a l ih =>
    by_cases ha : a = sep
    · obtain ⟨rfl, rfl⟩ : [] = x ∧ l = y := by simpa [once, ha] using h
      exact ⟨congrArg (· :: l) ha, List.not_mem_nil⟩
    · rw [once_cons_of_ne ha, Option.map_eq_some_iff] at h
      obtain ⟨⟨x', y'⟩, hl, hxy⟩ := h
      obtain ⟨rfl, rfl⟩ := Prod.mk.inj hxy
      obtain ⟨rfl, hx⟩ := ih hl
      exact ⟨rfl, by simpa [hx] using Ne.symm ha⟩

theorem once_eq_some_iff : once sep l = some (x, y) ↔ l = x ++ sep :: y ∧ sep ∉ x := by
  refine ⟨of_once, ?_⟩
  rintro ⟨rfl, h⟩
  exact once_append h

theorem once_eq_none : once sep l = none ↔ sep ∉ l := by
  induction l with
  | nil => simp [once]
  | cons a l ih =>
    by_cases ha : a = sep
    · simp [ha]
    · rw [once_cons_of_ne ha, Option.map_eq_none_iff, ih, List.mem_cons, not_or]
      exact (and_iff_right (Ne.symm ha)).symm

theorem rightOnce_eq_some_iff : rightOnce sep l = some (x, y) ↔ l = x ++ sep :: y ∧ sep ∉ y := by
  have hmap : rightOnce sep l = some (x, y) ↔ once sep l.reverse = some (y.reverse, x.reverse) := by
    simp only [rightOnce, Option.map_eq_some_iff, Prod.exists, Prod.mk.injEq]
    grind
  rw [hmap, once_eq_some_iff, List.reverse_eq_iff]
  simp

theorem rightOnce_append (h : sep ∉ y) : rightOnce sep (x ++ sep :: y) = some (x, y) :=
  rightOnce_eq_some_iff.2 ⟨rfl, h⟩

theorem parts_append (h : sep ∉ x) : parts sep (x ++ sep :: y) = (x, some y) := by
  rw [parts, once_append h]

theorem not_mem_of_parts {y : Option (List α)} (h : parts sep l = (x, y)) : sep ∉ x := by
  unfold parts at h
  split at h
  next honce =>
    obtain ⟨rfl, -⟩ := Prod.mk.inj h
    exact (of_once honce).2
  next hnone =>
    obtain ⟨rfl, -⟩ := Prod.mk.inj h
    exact once_eq_none.1 hnone

/-- Pieces that hold no separator, with one before each piece but the first. -/
theorem splitOn_pieces {pieces : List (List α)} (h : sep ∉ x) (hs : ∀ piece ∈ pieces, sep ∉ piece) :
    (x ++ pieces.flatMap (sep :: ·)).splitOn sep = x :: pieces := by
  induction pieces generalizing x with
  | nil => simpa using List.splitOn_eq_singleton h
  | cons piece pieces ih =>
    rw [List.flatMap_cons, List.cons_append, List.splitOn_append_cons_self_of_not_mem h,
      ih (hs piece List.mem_cons_self) fun piece hp => hs piece (List.mem_cons_of_mem _ hp)]

end Split
