import Mathlib

/-!
# Spans that tile an interval

A family of spans, each with a start and a length, laid one behind the other.

* `Chain start len a xs b`: the spans of `xs`, in this order, go from `a` to `b`, each one
  beginning where the one before it ends;
* `Chain.existsUnique_cover`: a chain covers each point of `[a, b)` exactly once;
* `Chain.slice_flatMap`: where each span carries bytes of its own length, the bytes of all of
  them hold those of each one at its start;
* `Chain.eq_of_perm`: a chain of spans that are not empty is the only way to sort them;
* `Chain.perm_iff`: which orders of the spans of a chain are chains, where some may be empty.
-/

namespace Tiling

variable {α β : Type*} {start len : α → ℕ}

/-- The spans of the list, in its order, go from `a` to `b` with no overlap and no hole. -/
def Chain (start len : α → ℕ) : ℕ → List α → ℕ → Prop
  | a, [], b => a = b
  | a, x :: xs, b => start x = a ∧ Chain start len (a + len x) xs b

@[simp] theorem chain_nil {a b : ℕ} : Chain start len a [] b ↔ a = b := Iff.rfl

@[simp] theorem chain_cons {a b : ℕ} {x : α} {xs : List α} :
    Chain start len a (x :: xs) b ↔ start x = a ∧ Chain start len (a + len x) xs b := Iff.rfl

instance Chain.decidable (start len : α → ℕ) :
    (a : ℕ) → (xs : List α) → (b : ℕ) → Decidable (Chain start len a xs b)
  | a, [], b => inferInstanceAs (Decidable (a = b))
  | a, x :: xs, b =>
    have := Chain.decidable start len (a + len x) xs b
    inferInstanceAs (Decidable (start x = a ∧ Chain start len (a + len x) xs b))

/-- The end of a chain is its start and all its lengths. -/
theorem Chain.end_eq {a b : ℕ} {xs : List α} (h : Chain start len a xs b) :
    b = a + (xs.map len).sum := by
  induction xs generalizing a with
  | nil => simpa using h.symm
  | cons x xs ih =>
    rw [ih h.2, List.map_cons, List.sum_cons]
    omega

theorem Chain.le {a b : ℕ} {xs : List α} (h : Chain start len a xs b) : a ≤ b := by
  rw [h.end_eq]; omega

theorem Chain.bounds {a b : ℕ} {xs : List α} (h : Chain start len a xs b) :
    ∀ x ∈ xs, a ≤ start x ∧ start x + len x ≤ b := by
  induction xs generalizing a with
  | nil => simp
  | cons x xs ih =>
    obtain ⟨hx, hrest⟩ := h
    intro y hy
    rcases List.mem_cons.1 hy with rfl | hy
    · exact ⟨by omega, by have := hrest.le; omega⟩
    · have := ih hrest y hy
      omega

theorem Chain.append {a b c : ℕ} {xs ys : List α} (hx : Chain start len a xs b)
    (hy : Chain start len b ys c) : Chain start len a (xs ++ ys) c := by
  induction xs generalizing a with
  | nil => cases hx; exact hy
  | cons x xs ih => exact ⟨hx.1, ih hx.2⟩

/-- The images of a chain, where each keeps its start and its length. -/
theorem Chain.map {γ : Type*} {start' len' : γ → ℕ} {g : α → γ} {a b : ℕ} {xs : List α}
    (h : Chain start len a xs b) (hg : ∀ x ∈ xs, start' (g x) = start x ∧ len' (g x) = len x) :
    Chain start' len' a (xs.map g) b := by
  induction xs generalizing a with
  | nil => exact h
  | cons x xs ih =>
    obtain ⟨hstart, hlen⟩ := hg x (by simp)
    exact ⟨hstart.trans h.1, hlen ▸ ih h.2 fun y hy => hg y (by simp [hy])⟩

/-- Two spans of a chain do not overlap. -/
theorem Chain.pairwise {a b : ℕ} {xs : List α} (h : Chain start len a xs b) :
    xs.Pairwise fun x y => start x + len x ≤ start y := by
  induction xs generalizing a with
  | nil => exact List.Pairwise.nil
  | cons x xs ih =>
    refine List.Pairwise.cons (fun y hy => ?_) (ih h.2)
    have := (h.2.bounds y hy).1
    rw [h.1]
    exact this

theorem Chain.apart {a b : ℕ} {xs : List α} (h : Chain start len a xs b) {x y : α} (hx : x ∈ xs)
    (hy : y ∈ xs) (hne : x ≠ y) : start x + len x ≤ start y ∨ start y + len y ≤ start x := by
  have hsymm : Std.Symm fun x y => start x + len x ≤ start y ∨ start y + len y ≤ start x :=
    ⟨fun _ _ => Or.symm⟩
  have hapart : xs.Pairwise fun x y => start x + len x ≤ start y ∨ start y + len y ≤ start x :=
    h.pairwise.imp .inl
  exact hapart.forall hx hy hne

/-- A chain covers each point between its ends. -/
theorem Chain.exists_cover {a b p : ℕ} {xs : List α} (h : Chain start len a xs b)
    (ha : a ≤ p) (hb : p < b) : ∃ x ∈ xs, start x ≤ p ∧ p < start x + len x := by
  induction xs generalizing a with
  | nil =>
    rw [chain_nil] at h
    omega
  | cons x xs ih =>
    by_cases hp : p < a + len x
    · exact ⟨x, by simp, by rw [h.1]; omega⟩
    · obtain ⟨y, hy, hcover⟩ := ih h.2 (by omega)
      exact ⟨y, by simp [hy], hcover⟩

/-- Two spans of a chain that hold one point are one span of it. -/
theorem Chain.cover_unique {a b p : ℕ} {xs : List α} (h : Chain start len a xs b) {x y : α}
    (hx : x ∈ xs) (hy : y ∈ xs) (hpx : start x ≤ p ∧ p < start x + len x)
    (hpy : start y ≤ p ∧ p < start y + len y) : x = y := by
  induction xs generalizing a with
  | nil => simp at hx
  | cons z xs ih =>
    have hfirst : ∀ w ∈ xs, start z + len z ≤ start w := fun w hw => by
      have := (h.2.bounds w hw).1
      rw [h.1]
      exact this
    rcases List.mem_cons.1 hx with rfl | hx' <;> rcases List.mem_cons.1 hy with rfl | hy'
    · rfl
    · have := hfirst y hy'
      omega
    · have := hfirst x hx'
      omega
    · exact ih h.2 hx' hy'

/-- **A chain from `a` to `b` covers each point of `[a, b)` exactly once.** -/
theorem Chain.existsUnique_cover {a b p : ℕ} {xs : List α} (h : Chain start len a xs b)
    (ha : a ≤ p) (hb : p < b) : ∃! x, x ∈ xs ∧ start x ≤ p ∧ p < start x + len x := by
  obtain ⟨x, hx, hcover⟩ := h.exists_cover ha hb
  exact ⟨x, ⟨hx, hcover⟩, fun y hy => h.cover_unique hy.1 hx hy.2 hcover⟩

/-- The bytes of a chain hold the bytes of each span at its start. -/
theorem Chain.slice_flatMap {a b : ℕ} {xs : List α} (h : Chain start len a xs b)
    (bytes : α → List β) (hlen : ∀ x ∈ xs, (bytes x).length = len x) :
    ∀ x ∈ xs, ((xs.flatMap bytes).drop (start x - a)).take (len x) = bytes x := by
  induction xs generalizing a with
  | nil => simp
  | cons z xs ih =>
    have hz : (bytes z).length = len z := hlen z (by simp)
    intro x hx
    rcases List.mem_cons.1 hx with rfl | hx
    · simp [h.1, hz]
    · have hge := (h.2.bounds x hx).1
      have hsplit : start x - a = (bytes z).length + (start x - (a + len z)) := by omega
      rw [List.flatMap_cons, hsplit, List.drop_append, List.drop_of_length_le (by omega),
        List.nil_append, Nat.add_sub_cancel_left]
      exact ih h.2 (fun y hy => hlen y (by simp [hy])) x hx

theorem Chain.length_flatMap {a b : ℕ} {xs : List α} (h : Chain start len a xs b)
    (bytes : α → List β) (hlen : ∀ x ∈ xs, (bytes x).length = len x) :
    a + (xs.flatMap bytes).length = b := by
  rw [h.end_eq, List.length_flatMap, List.map_congr_left hlen]

/-- **A chain of spans that are not empty is the only way to sort its spans by their starts.** -/
theorem Chain.eq_of_perm {a b : ℕ} {xs ys : List α} (h : Chain start len a xs b)
    (hpos : ∀ x ∈ xs, 0 < len x) (hperm : ys.Perm xs)
    (hsorted : ys.Pairwise fun x y => start x ≤ start y) : ys = xs := by
  have hxs : xs.Pairwise fun x y => start x < start y :=
    h.pairwise.imp_of_mem fun hx _ hle => by have := hpos _ hx; omega
  have hinj : ∀ x ∈ xs, ∀ y ∈ xs, start x = start y → x = y := by
    intro x hx y hy heq
    have := hpos x hx
    have := hpos y hy
    exact h.cover_unique (p := start x) hx hy (by omega) (by omega)
  refine hperm.eq_of_pairwise ?_ hsorted
    (hxs.imp fun hlt => hlt.le)
  intro x y hx hy hxy hyx
  exact hinj x (hperm.subset hx) y hy (by omega)

/-! ### Sorted spans, of which some are empty -/

/-- A span that stands in front of another begins before it, or begins with it and is empty. -/
def InTurn (start len : α → ℕ) (x y : α) : Prop := start x < start y ∨ start x = start y ∧ len x = 0

theorem Chain.inTurn {a b : ℕ} {xs : List α} (h : Chain start len a xs b) :
    xs.Pairwise (InTurn start len) :=
  h.pairwise.imp fun hle => by rw [InTurn]; omega

/-- Whether spans are a chain is said by their starts and lengths alone. -/
theorem chain_span {a b : ℕ} {xs : List α} : Chain start len a xs b ↔
    Chain Prod.fst Prod.snd a (xs.map fun x => (start x, len x)) b := by
  induction xs generalizing a with
  | nil => rfl
  | cons x xs ih => exact and_congr_right fun _ => ih

/-- **The spans of a chain are one in another order too, exactly where no span stands behind one that is
not empty and begins where it does.** -/
theorem Chain.perm_iff {a b : ℕ} {xs ys : List α} (h : Chain start len a xs b)
    (hperm : ys.Perm xs) : Chain start len a ys b ↔ ys.Pairwise (InTurn start len) := by
  refine ⟨Chain.inTurn, fun hys => ?_⟩
  have hspans : ys.map (fun x => (start x, len x)) = xs.map fun x => (start x, len x) := by
    have hys' : (ys.map fun x => (start x, len x)).Pairwise (InTurn Prod.fst Prod.snd) :=
      List.pairwise_map.2 hys
    refine (hperm.map _).eq_of_pairwise ?_ hys' (List.pairwise_map.2 h.inTurn)
    rintro ⟨s, l⟩ ⟨t, m⟩ - - hst hts
    simp only [InTurn] at hst hts
    exact Prod.ext (by dsimp only; omega) (by dsimp only; omega)
  rw [chain_span, hspans, ← chain_span]
  exact h

end Tiling
