import Mathlib

/-!
# A thing that comes in parts

The parts of a thing come in any sequence, and each as often as it likes.  Those that came are kept until
all of them are there: then the thing is given back and they are gone.  What is kept may also be lost.

* `Collected`: what was given back and what is kept, behind parts that came;
* `Collected.take`, `Collected.other`, `Collected.lose`: a part comes, something else does, what is kept
  is lost;
* `Kept`: nothing was lost before the thing was first given back.
-/

namespace Collect

variable {α : Type*} {parts came waiting : List α} {given : ℕ}

/-- Until the thing is given back, all of its parts that came are kept. -/
def Kept (parts came : List α) (given : ℕ) (waiting : List α) : Prop :=
  given = 0 → ∀ a ∈ parts, a ∈ came → a ∈ waiting

variable [BEq α]

/-- Behind all that came, the thing was given back so often, and `waiting` is kept. -/
structure Collected (parts came : List α) (given : ℕ) (waiting : List α) : Prop where
  subset : waiting ⊆ parts
  short : ¬ parts ⊆ waiting
  /-- Each time took every part once. -/
  enough : ∀ a ∈ parts, given ≤ came.count a
  /-- What is kept came beside that. -/
  apart : ∀ a ∈ waiting, given < came.count a

theorem count_le_concat (came : List α) (a b : α) : came.count b ≤ (came ++ [a]).count b := by
  rw [List.count_append]
  exact Nat.le_add_right _ _

theorem collected_nil (h : parts ≠ []) (came : List α) : Collected parts came 0 [] where
  subset := List.nil_subset parts
  short hsub := h (List.subset_nil.1 hsub)
  enough _ _ := Nat.zero_le _
  apart _ ha := absurd ha List.not_mem_nil

namespace Collected

variable (h : Collected parts came given waiting)
include h

/-- What is kept is lost. -/
theorem lose : Collected parts came given [] where
  subset := List.nil_subset parts
  short hsub := h.short (List.subset_nil.1 hsub ▸ List.nil_subset waiting)
  enough := h.enough
  apart _ ha := absurd ha List.not_mem_nil

/-- Something comes that counts for nothing. -/
theorem other (a : α) : Collected parts (came ++ [a]) given waiting where
  subset := h.subset
  short := h.short
  enough b hb := (h.enough b hb).trans (count_le_concat came a b)
  apart b hb := (h.apart b hb).trans_le (count_le_concat came a b)

/-- **A part comes**, and the thing is given back where it is the last. -/
theorem take [LawfulBEq α] {a : α} (ha : a ∈ parts) [Decidable (parts ⊆ waiting ++ [a])] :
    Collected parts (came ++ [a]) (if parts ⊆ waiting ++ [a] then given + 1 else given)
      (if parts ⊆ waiting ++ [a] then [] else waiting ++ [a]) := by
  have hnew : (came ++ [a]).count a = came.count a + 1 := by simp
  by_cases hall : parts ⊆ waiting ++ [a]
  · rw [if_pos hall, if_pos hall]
    refine ⟨List.nil_subset parts, fun hsub => absurd (hsub ha) List.not_mem_nil, fun b hb => ?_,
      fun b hb => absurd hb List.not_mem_nil⟩
    rcases List.mem_append.1 (hall hb) with hkept | hlast
    · exact (h.apart b hkept).trans_le (count_le_concat came a b)
    · rw [List.mem_singleton.1 hlast, hnew]
      exact Nat.succ_le_succ (h.enough a ha)
  · rw [if_neg hall, if_neg hall]
    refine ⟨List.append_subset.2 ⟨h.subset, List.cons_subset.2 ⟨ha, List.nil_subset parts⟩⟩, hall,
      (h.other a).enough, fun b hb => ?_⟩
    rcases List.mem_append.1 hb with hkept | hlast
    · exact (h.other a).apart b hkept
    · rw [List.mem_singleton.1 hlast, hnew]
      exact Nat.lt_succ_of_le (h.enough a ha)

end Collected

namespace Kept

variable (h : Kept parts came given waiting)
include h

omit [BEq α] in
theorem other {a : α} (ha : a ∉ parts) : Kept parts (came ++ [a]) given waiting := by
  intro hnone b hb hcame
  rcases List.mem_append.1 hcame with hcame | hcame
  · exact h hnone b hb hcame
  · rw [List.mem_singleton.1 hcame] at hb
    exact absurd hb ha

omit [BEq α] in
theorem take (a : α) [Decidable (parts ⊆ waiting ++ [a])] :
    Kept parts (came ++ [a]) (if parts ⊆ waiting ++ [a] then given + 1 else given)
      (if parts ⊆ waiting ++ [a] then [] else waiting ++ [a]) := by
  intro hnone b hb hcame
  split_ifs at hnone ⊢ with hall
  rcases List.mem_append.1 hcame with hcame | hcame
  · exact List.mem_append_left _ (h hnone b hb hcame)
  · exact List.mem_append_right _ hcame

/-- **Where every part came, the thing was given back.** -/
theorem given_pos (hcollected : Collected parts came given waiting) (hall : parts ⊆ came) :
    0 < given := by
  refine Nat.pos_of_ne_zero fun hnone => hcollected.short fun a ha => ?_
  exact h hnone a ha (hall ha)

end Kept

end Collect
