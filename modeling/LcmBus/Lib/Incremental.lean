import Mathlib

/-!
# Incremental parsers

A parser is asked what is at the front of the bytes that have come so far, and answers with what it
found there and the length of it, or with a length it must have first, or with an error.

* `Stable`: what it answers on the bytes that have come is what it answers on all of them;
* `parse next l` is the whole of `l` taken apart, with the error that ended it, where one did;
* `Stable.parse_take`, `Stable.parse_fail`: what the parser finds at the front of a part of the
  stream is the first of what is in the whole of it;
* `Leaves`: what was found in a part of the stream, and where the parser is to go on;
* `Plan`: a parser that says how far it must see before it goes on, and sees no further.  Every one
  that takes no more than it has seen is stable (`Plan.Fits.stable`).
-/

namespace Incremental

variable {β α ε : Type*}

/-- What is at the front of a stream. -/
inductive Answer (α ε : Type*)
  | take (found : α) (used : ℕ)
  | need (length : ℕ)
  | fail (error : ε)

/-- What comes later does not change an answer that was given. -/
structure Stable (next : List β → Answer α ε) : Prop where
  take_bounds : ∀ {l a n}, next l = .take a n → 0 < n ∧ n ≤ l.length
  take_append : ∀ {l a n}, next l = .take a n → ∀ r, next (l ++ r) = .take a n
  fail_append : ∀ {l e}, next l = .fail e → ∀ r, next (l ++ r) = .fail e
  need_gt : ∀ {l n}, next l = .need n → l.length < n

/-- What is found is there, and is not nothing. -/
def Takes (next : List β → Answer α ε) : Prop :=
  ∀ l a n, next l = .take a n → 0 < n ∧ n ≤ l.length

/-- The first `fuel` answers of the parser on `l`. -/
def parseFuel (next : List β → Answer α ε) : ℕ → List β → List α × Option ε
  | 0, _ => ([], none)
  | fuel + 1, l =>
    match next l with
    | .take a n => ((parseFuel next fuel (l.drop n)).1.cons a, (parseFuel next fuel (l.drop n)).2)
    | .need _ => ([], none)
    | .fail e => ([], some e)

/-- A stream taken apart, and the error that ended it. -/
def parse (next : List β → Answer α ε) (l : List β) : List α × Option ε :=
  parseFuel next (l.length + 1) l

variable {next : List β → Answer α ε}

theorem Stable.takes (h : Stable next) : Takes next := fun _ _ _ => h.take_bounds

/-- There are no more answers than there are bytes. -/
theorem Takes.parseFuel_eq (h : Takes next) {fuel fuel' : ℕ} {l : List β} (hf : l.length < fuel)
    (hf' : l.length < fuel') : parseFuel next fuel l = parseFuel next fuel' l := by
  induction fuel generalizing l fuel' with
  | zero => omega
  | succ fuel ih =>
    obtain ⟨fuel', rfl⟩ : ∃ m, fuel' = m + 1 := ⟨fuel' - 1, by omega⟩
    rw [parseFuel, parseFuel]
    cases hn : next l with
    | take a n =>
      have hpos := h l a n hn
      have hlen : (l.drop n).length = l.length - n := List.length_drop
      have hrest : parseFuel next fuel (l.drop n) = parseFuel next fuel' (l.drop n) :=
        ih (by omega) (by omega)
      simp only [hrest]
    | need n => rfl
    | fail e => rfl

theorem Takes.parse_take (h : Takes next) {l : List β} {a : α} {n : ℕ}
    (hn : next l = .take a n) :
    parse next l = ((parse next (l.drop n)).1.cons a, (parse next (l.drop n)).2) := by
  have hpos := h l a n hn
  have hlen : (l.drop n).length = l.length - n := List.length_drop
  have hrest : parseFuel next l.length (l.drop n) = parse next (l.drop n) :=
    h.parseFuel_eq (by omega) (by omega)
  rw [parse, parseFuel, hn]
  simp only [hrest]

/-- What is found in the part of a stream that has come is the first thing in the whole of it. -/
theorem Stable.parse_take (h : Stable next) {l : List β} {a : α} {n : ℕ} (hn : next l = .take a n)
    (r : List β) : parse next (l ++ r) =
      ((parse next (l.drop n ++ r)).1.cons a, (parse next (l.drop n ++ r)).2) := by
  rw [h.takes.parse_take (h.take_append hn r), List.drop_append_of_le_length (h.take_bounds hn).2]

theorem Stable.parse_fail (h : Stable next) {l : List β} {e : ε} (hn : next l = .fail e)
    (r : List β) : parse next (l ++ r) = ([], some e) := by
  rw [parse, parseFuel, h.fail_append hn r]

theorem parse_need {l : List β} {n : ℕ} (hn : next l = .need n) : parse next l = ([], none) := by
  rw [parse, parseFuel, hn]

/-- A stream that is laid out of what the parser takes is taken apart into that. -/
theorem Stable.parse_flatMap (h : Stable next) (hnil : ∃ n, next [] = .need n)
    {items : List (α × List β)} (hitems : ∀ item ∈ items, next item.2 = .take item.1 item.2.length) :
    parse next (items.flatMap Prod.snd) = (items.map Prod.fst, none) := by
  induction items with
  | nil =>
    obtain ⟨n, hneed⟩ := hnil
    exact parse_need hneed
  | cons item items ih =>
    have hrest := ih fun item hitem => hitems item (List.mem_cons_of_mem _ hitem)
    rw [List.flatMap_cons, h.parse_take (hitems item List.mem_cons_self), List.drop_length,
      List.nil_append, hrest, List.map_cons]

/-- What holds of all that a parser finds holds of all that is in a stream. -/
theorem forall_mem_parse {P : α → Prop} (hfound : ∀ l a n, next l = .take a n → P a) (l : List β) :
    ∀ a ∈ (parse next l).1, P a := by
  have hfuel : ∀ fuel l, ∀ a ∈ (parseFuel next fuel l).1, P a := fun fuel => by
    induction fuel with
    | zero => simp [parseFuel]
    | succ fuel ih =>
      intro l a ha
      rw [parseFuel] at ha
      cases hn : next l with
      | take b n =>
        simp only [hn] at ha
        rcases List.mem_cons.1 ha with rfl | ha
        · exact hfound l a n hn
        · exact ih _ a ha
      | need n => simp [hn] at ha
      | fail e => simp [hn] at ha
  exact hfuel _ l

/-- A stream that is laid out of what the parser takes, or fails at, holds the first of that. -/
theorem Stable.parse_isPrefix (h : Stable next) (hnil : ∃ n, next [] = .need n)
    {items : List (α × List β)} (hitems : ∀ item ∈ items,
      next item.2 = .take item.1 item.2.length ∨ ∃ e, next item.2 = .fail e) :
    (parse next (items.flatMap Prod.snd)).1 <+: items.map Prod.fst := by
  induction items with
  | nil =>
    obtain ⟨n, hneed⟩ := hnil
    rw [List.flatMap_nil, parse_need hneed]
    exact List.nil_prefix
  | cons item items ih =>
    have hrest := ih fun item hitem => hitems item (List.mem_cons_of_mem _ hitem)
    rw [List.flatMap_cons]
    rcases hitems item List.mem_cons_self with htake | ⟨e, hfail⟩
    · rw [h.parse_take htake, List.drop_length, List.nil_append, List.map_cons]
      exact List.cons_prefix_cons.2 ⟨rfl, hrest⟩
    · rw [h.parse_fail hfail]
      exact List.nil_prefix

/-- And all of that, where the parser did not fail. -/
theorem Stable.parse_eq_of_none (h : Stable next) (hnil : ∃ n, next [] = .need n)
    {items : List (α × List β)} (hitems : ∀ item ∈ items,
      next item.2 = .take item.1 item.2.length ∨ ∃ e, next item.2 = .fail e)
    (hnone : (parse next (items.flatMap Prod.snd)).2 = none) :
    (parse next (items.flatMap Prod.snd)).1 = items.map Prod.fst := by
  induction items with
  | nil =>
    obtain ⟨n, hneed⟩ := hnil
    rw [List.flatMap_nil, parse_need hneed, List.map_nil]
  | cons item items ih =>
    rw [List.flatMap_cons] at hnone ⊢
    rcases hitems item List.mem_cons_self with htake | ⟨e, hfail⟩
    · rw [h.parse_take htake, List.drop_length, List.nil_append] at hnone ⊢
      rw [List.map_cons, ih (fun item hitem => hitems item (List.mem_cons_of_mem _ hitem)) hnone]
    · rw [h.parse_fail hfail] at hnone
      cases hnone

/-! ### A stream that is still coming -/

/-- Of a stream that starts with `l` the parser finds `found` first, and goes on with `rest`. -/
def Leaves (next : List β → Answer α ε) (l : List β) (found : List α) (rest : List β) : Prop :=
  ∀ r, parse next (l ++ r) =
    (found ++ (parse next (rest ++ r)).1, (parse next (rest ++ r)).2)

namespace Leaves

variable {l rest : List β} {found : List α}

theorem nil : Leaves next [] [] [] := fun _ => rfl

/-- More of the stream comes. -/
theorem append (h : Leaves next l found rest) (more : List β) :
    Leaves next (l ++ more) found (rest ++ more) := fun r => by
  rw [List.append_assoc, List.append_assoc]
  exact h (more ++ r)

/-- What is at the front of the rest is taken off it. -/
theorem take (h : Leaves next l found rest) (hstable : Stable next) {a : α} {n : ℕ}
    (hn : next rest = .take a n) : Leaves next l (found ++ [a]) (rest.drop n) := fun r => by
  rw [h r, hstable.parse_take hn]
  simp

/-- What was found is the first of what is in any stream that goes on from there. -/
theorem found_isPrefix (h : Leaves next l found rest) {stream : List β} (hstream : l <+: stream) :
    found <+: (parse next stream).1 := by
  obtain ⟨r, rfl⟩ := hstream
  rw [h r]
  exact List.prefix_append _ _

/-- And all of it, where the parser waits for more. -/
theorem found_eq (h : Leaves next l found rest) {n : ℕ} (hneed : next rest = .need n) :
    parse next l = (found, none) := by
  have hall := h []
  rwa [List.append_nil, List.append_nil, parse_need hneed, List.append_nil] at hall

end Leaves

/-! ### Parsers that say how far they must see -/

/-- A parser as what it comes to, or the length it waits for and how it goes on from there. -/
inductive Plan (β α ε : Type*)
  | take (found : α) (used : ℕ)
  | fail (error : ε)
  | wait (length : ℕ) (next : List β → Plan β α ε)

namespace Plan

/-- What the parser answers where `l` has come. -/
def run : Plan β α ε → List β → Answer α ε
  | .take a n, _ => .take a n
  | .fail e, _ => .fail e
  | .wait n next, l => if l.length < n then .need n else (next (l.take n)).run l

/-- Where the parser has seen `seen` bytes, it takes no more than those, and it waits for no more
than `most`. -/
def Fits (most : ℕ) : ℕ → Plan β α ε → Prop
  | seen, .take _ n => 0 < n ∧ n ≤ seen
  | _, .fail _ => True
  | _, .wait n next => n ≤ most ∧ ∀ l : List β, l.length = n → Fits most n (next l)

/-- All that the parser can find is in `P`. -/
def Finds (P : α → Prop) : Plan β α ε → Prop
  | .take a _ => P a
  | .fail _ => True
  | .wait n next => ∀ l : List β, l.length = n → Finds P (next l)

/-- Whatever the parser finds is at least so long. -/
def AtLeast (least : ℕ) : Plan β α ε → Prop
  | .take _ n => least ≤ n
  | .fail _ => True
  | .wait n next => ∀ l : List β, l.length = n → AtLeast least (next l)

variable {p : Plan β α ε} {l : List β}

theorem run_wait_of_le {n : ℕ} {next : List β → Plan β α ε} (h : n ≤ l.length) :
    (wait n next).run l = (next (l.take n)).run l := if_neg (by omega)

/-- An answer that is no wait stays. -/
theorem run_append (h : ∀ n, p.run l ≠ .need n) (r : List β) : p.run (l ++ r) = p.run l := by
  induction p with
  | take a n => rfl
  | fail e => rfl
  | wait n next ih =>
    by_cases hn : l.length < n
    · exact absurd (if_pos hn) (h n)
    · have hle : n ≤ l.length := by omega
      have hle' : n ≤ (l ++ r).length := hle.trans (by simp)
      rw [run_wait_of_le hle] at h ⊢
      rw [run_wait_of_le hle', List.take_append_of_le_length hle]
      exact ih _ h

theorem need_gt {n : ℕ} (h : p.run l = .need n) : l.length < n := by
  induction p with
  | take a m => cases h
  | fail e => cases h
  | wait m next ih =>
    by_cases hm : l.length < m
    · rw [run, if_pos hm] at h
      cases h
      exact hm
    · rw [run_wait_of_le (by omega)] at h
      exact ih _ h

/-- A wait stays until as much as it waits for has come. -/
theorem need_append {n : ℕ} (h : p.run l = .need n) {r : List β} (hr : (l ++ r).length < n) :
    p.run (l ++ r) = .need n := by
  induction p with
  | take a m => cases h
  | fail e => cases h
  | wait m next ih =>
    by_cases hm : l.length < m
    · rw [run, if_pos hm] at h
      cases h
      exact if_pos hr
    · have hle : m ≤ l.length := by omega
      rw [run_wait_of_le hle] at h
      rw [run_wait_of_le (hle.trans (by simp)), List.take_append_of_le_length hle]
      exact ih _ h

theorem Finds.of_run {P : α → Prop} (h : p.Finds P) {a : α} {n : ℕ} (hrun : p.run l = .take a n) :
    P a := by
  induction p with
  | take b m =>
    cases hrun
    exact h
  | fail e => cases hrun
  | wait m next ih =>
    by_cases hm : l.length < m
    · rw [run, if_pos hm] at hrun
      cases hrun
    · have hle : m ≤ l.length := by omega
      rw [run_wait_of_le hle] at hrun
      exact ih _ (h _ (List.length_take_of_le hle)) hrun

theorem AtLeast.of_run {least : ℕ} (h : p.AtLeast least) {a : α} {n : ℕ}
    (hrun : p.run l = .take a n) : least ≤ n := by
  induction p with
  | take b m =>
    cases hrun
    exact h
  | fail e => cases hrun
  | wait m next ih =>
    by_cases hm : l.length < m
    · rw [run, if_pos hm] at hrun
      cases hrun
    · have hle : m ≤ l.length := by omega
      rw [run_wait_of_le hle] at hrun
      exact ih _ (h _ (List.length_take_of_le hle)) hrun

namespace Fits

variable {most seen : ℕ}

theorem take_bounds (h : p.Fits most seen) (hseen : seen ≤ l.length) {a : α} {n : ℕ}
    (hrun : p.run l = .take a n) : 0 < n ∧ n ≤ l.length := by
  induction p generalizing seen with
  | take a m =>
    cases hrun
    exact ⟨h.1, h.2.trans hseen⟩
  | fail e => cases hrun
  | wait m next ih =>
    by_cases hm : l.length < m
    · rw [run, if_pos hm] at hrun
      cases hrun
    · have hle : m ≤ l.length := by omega
      rw [run_wait_of_le hle] at hrun
      exact ih _ (h.2 _ (List.length_take_of_le hle)) hle hrun

theorem need_le (h : p.Fits most seen) {n : ℕ} (hrun : p.run l = .need n) : n ≤ most := by
  induction p generalizing seen with
  | take a m => cases hrun
  | fail e => cases hrun
  | wait m next ih =>
    by_cases hm : l.length < m
    · rw [run, if_pos hm] at hrun
      cases hrun
      exact h.1
    · have hle : m ≤ l.length := by omega
      rw [run_wait_of_le hle] at hrun
      exact ih _ (h.2 _ (List.length_take_of_le hle)) hrun

/-- A parser that takes no more than it has seen is stable. -/
theorem stable (h : p.Fits most 0) : Stable p.run where
  take_bounds hrun := h.take_bounds (Nat.zero_le _) hrun
  take_append hrun r := by rw [run_append (by simp [hrun]), hrun]
  fail_append hrun r := by rw [run_append (by simp [hrun]), hrun]
  need_gt := need_gt

end Fits

end Plan

end Incremental
