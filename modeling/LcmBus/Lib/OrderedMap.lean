import Mathlib
import Std.Data.ExtTreeMap

/-!
# The entries of an ordered map, as a list

What `insert` and `erase` do to `ExtTreeMap.toList`, up to the sequence of its entries, and so to a
sum over the values of a map.

* `toList_insert_perm`, `toList_perm_erase`: an entry more, and one fewer;
* `getElem?_erase_of_unique`: what goes out of a map where a value has one key;
* `total`: what the values of a map come to, each one weighed; `total_insert_of_not_mem` and
  `total_insert_of_getElem?`: one value more, and one in place of another.
-/

open Std (ExtTreeMap TransCmp LawfulEqCmp)

namespace OrderedMap

variable {α β : Type*} {cmp : α → α → Ordering} [TransCmp cmp] [LawfulEqCmp cmp]

theorem nodup_toList (t : ExtTreeMap α β cmp) : t.toList.Nodup := by
  refine ExtTreeMap.distinct_keys_toList.imp fun {a b} hne heq => hne ?_
  rw [heq]
  exact Std.ReflCmp.compare_self

omit [LawfulEqCmp cmp] in
theorem mem_iff_exists {t : ExtTreeMap α β cmp} {k : α} : k ∈ t ↔ ∃ v, t[k]? = some v := by
  rw [ExtTreeMap.mem_iff_isSome_getElem?, Option.isSome_iff_exists]

omit [LawfulEqCmp cmp] in
theorem mem_of_getElem? {t : ExtTreeMap α β cmp} {k : α} {v : β} (h : t[k]? = some v) : k ∈ t :=
  mem_iff_exists.2 ⟨v, h⟩

omit [LawfulEqCmp cmp] in
theorem mem_congr {t u : ExtTreeMap α β cmp} {k : α} (h : t[k]? = u[k]?) : k ∈ t ↔ k ∈ u := by
  rw [mem_iff_exists, mem_iff_exists, h]

/-- A new key puts one entry more in the list. -/
theorem toList_insert_perm {t : ExtTreeMap α β cmp} {k : α} (v : β) (h : k ∉ t) :
    (t.insert k v).toList.Perm ((k, v) :: t.toList) := by
  have hnone : t[k]? = none := ExtTreeMap.getElem?_eq_none h
  have hfresh : (k, v) ∉ t.toList := by
    rw [ExtTreeMap.mem_toList_iff_getElem?_eq_some, hnone]
    simp
  refine (List.perm_ext_iff_of_nodup (nodup_toList _)
    (List.nodup_cons.2 ⟨hfresh, nodup_toList t⟩)).2 ?_
  rintro ⟨k', v'⟩
  rw [ExtTreeMap.mem_toList_iff_getElem?_eq_some, ExtTreeMap.getElem?_insert, List.mem_cons,
    ExtTreeMap.mem_toList_iff_getElem?_eq_some, Prod.mk.injEq]
  by_cases hk : k = k'
  · subst hk
    simp [hnone, eq_comm, Std.ReflCmp.compare_self]
  · simp [hk, Ne.symm hk]

/-- An entry that goes takes its place in the list with it. -/
theorem toList_perm_erase {t : ExtTreeMap α β cmp} {k : α} {v : β} (h : t[k]? = some v) :
    t.toList.Perm ((k, v) :: (t.erase k).toList) := by
  have hgone : (k, v) ∉ (t.erase k).toList := by
    rw [ExtTreeMap.mem_toList_iff_getElem?_eq_some, ExtTreeMap.getElem?_erase_self]
    simp
  refine (List.perm_ext_iff_of_nodup (nodup_toList t)
    (List.nodup_cons.2 ⟨hgone, nodup_toList _⟩)).2 ?_
  rintro ⟨k', v'⟩
  rw [ExtTreeMap.mem_toList_iff_getElem?_eq_some, List.mem_cons,
    ExtTreeMap.mem_toList_iff_getElem?_eq_some, ExtTreeMap.getElem?_erase, Prod.mk.injEq]
  by_cases hk : k = k'
  · subst hk
    simp [h, eq_comm]
  · simp [hk, Ne.symm hk]

/-- Where a value has no second key, the value of a key that goes is one the map has no more. -/
theorem getElem?_erase_of_unique {t : ExtTreeMap α β cmp} {R : α → β → Prop}
    (h : ∀ k v, t[k]? = some v ↔ R k v) {k₀ : α} {v₀ : β} (h₀ : R k₀ v₀)
    (hunique : ∀ k, R k v₀ → k = k₀) (k : α) (v : β) :
    (t.erase k₀)[k]? = some v ↔ v ≠ v₀ ∧ R k v := by
  rw [ExtTreeMap.getElem?_erase]
  split_ifs with hk
  · have hk' := LawfulEqCmp.eq_of_compare hk
    subst hk'
    refine ⟨nofun, fun ⟨hne, hR⟩ => ?_⟩
    have hfirst := (h k₀ v₀).2 h₀
    rw [(h k₀ v).2 hR] at hfirst
    exact absurd (Option.some.inj hfirst) hne
  · rw [h]
    refine ⟨fun hR => ⟨?_, hR⟩, And.right⟩
    rintro rfl
    rw [hunique k hR] at hk
    exact hk Std.ReflCmp.compare_self

theorem size_of_getElem? {t : ExtTreeMap α β cmp} {k : α} {v : β} (h : t[k]? = some v) :
    t.size = (t.erase k).size + 1 := by
  rw [← ExtTreeMap.length_toList, (toList_perm_erase h).length_eq, List.length_cons,
    ExtTreeMap.length_toList]

/-- A map of two keys has two entries or more. -/
theorem two_le_size {t : ExtTreeMap α β cmp} {j k : α} {v w : β} (hj : t[j]? = some v)
    (hk : t[k]? = some w) (hne : j ≠ k) : 2 ≤ t.size := by
  have herased : (t.erase j)[k]? = some w := by
    rw [ExtTreeMap.getElem?_erase, if_neg fun heq => hne (LawfulEqCmp.eq_of_compare heq), hk]
  rw [size_of_getElem? hj, size_of_getElem? herased]
  omega

/-- A map of one key has one entry at most. -/
theorem size_le_one {t : ExtTreeMap α β cmp} (k₀ : α) (h : ∀ k v, t[k]? = some v → k = k₀) :
    t.size ≤ 1 := by
  have hempty : t.erase k₀ = ∅ := ExtTreeMap.ext_getElem? fun k => by
    rw [ExtTreeMap.getElem?_erase, ExtTreeMap.getElem?_empty]
    split_ifs with hk
    · rfl
    · cases hv : t[k]? with
      | none => rfl
      | some v =>
        rw [h k v hv] at hk
        exact absurd Std.ReflCmp.compare_self hk
  have hsize := ExtTreeMap.size_erase (t := t) (k := k₀)
  rw [hempty, ExtTreeMap.size_empty] at hsize
  split_ifs at hsize <;> omega

/-! ### The sum over a map -/

/-- What the values of a map come to. -/
def total (weight : β → ℕ) (t : ExtTreeMap α β cmp) : ℕ :=
  (t.toList.map fun entry => weight entry.2).sum

variable (weight : β → ℕ) {t : ExtTreeMap α β cmp} {k : α} {v : β}

omit [LawfulEqCmp cmp] in
@[simp] theorem total_empty : total weight (∅ : ExtTreeMap α β cmp) = 0 := by
  rw [total, ExtTreeMap.toList_eq_nil_iff.2 rfl]
  rfl

theorem total_of_getElem? (h : t[k]? = some v) :
    total weight t = weight v + total weight (t.erase k) := by
  rw [total, ((toList_perm_erase h).map _).sum_eq, List.map_cons, List.sum_cons]
  rfl

theorem total_insert_of_not_mem (v : β) (h : k ∉ t) :
    total weight (t.insert k v) = weight v + total weight t := by
  rw [total, ((toList_insert_perm v h).map _).sum_eq, List.map_cons, List.sum_cons]
  rfl

/-- A value in the place of another. -/
theorem total_insert_of_getElem? {w : β} (v : β) (h : t[k]? = some w) :
    total weight (t.insert k v) + weight w = weight v + total weight t := by
  have herase : (t.insert k v).erase k = t.erase k := ExtTreeMap.ext_getElem? fun k' => by
    rw [ExtTreeMap.getElem?_erase, ExtTreeMap.getElem?_erase, ExtTreeMap.getElem?_insert]
    split_ifs <;> rfl
  rw [total_of_getElem? weight (ExtTreeMap.getElem?_insert_self (t := t) (k := k) (v := v)), herase,
    total_of_getElem? weight h]
  omega

end OrderedMap
