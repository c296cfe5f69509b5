import LcmBus.Wire.Reassembler

/-!
# One message of a reassembler, seen alone

The table of a reassembler shares a clock, an age index and a budget between all its messages.
Here is what `feed` does to one of them, with none of that.

* `Assembly.step` is a feed as the one message sees it: an entry that is there or is not, and a
  fragment for it;
* `Reassembler.view` is the entry of a key without its age;
* `feed_view`: a feed answers, and leaves its own entry, as `Assembly.step` does;
* `feed_partials_of_ne`: a feed that evicts nothing leaves every other entry as it was.
-/

open Std (ExtTreeMap TransCmp TransOrd LawfulEqCmp LawfulEqOrd)

namespace LcmBus.Udpm

namespace Partial

/-- An entry without its age. -/
def ageless (p : Partial) : Partial := { p with touched := 0 }

theorem take_touched (p : Partial) (fragment : Fragment) (now : ℕ) :
    { p with touched := now }.take fragment =
      ((p.take fragment).1, { (p.take fragment).2 with touched := now }) := by
  simp only [take]
  split_ifs <;> rfl

theorem take_ageless (p : Partial) (fragment : Fragment) :
    p.ageless.take fragment = ((p.take fragment).1, (p.take fragment).2.ageless) :=
  take_touched p fragment 0

end Partial

/-! ### The message alone -/

/-- The end of a message that has an index of each fragment. -/
def Assembly.finish (sort : UnstableSort) (sequence : UInt32) (p : Partial) :
    Except WireError (Option Frame) × Option Partial :=
  match p.assemble sort with
  | none => (.error (.inconsistentFragment sequence), none)
  | some frame => (.ok (some frame), none)

/-- A feed, as the message it is for sees it. -/
def Assembly.step (sort : UnstableSort) (entry : Option Partial) (fragment : Fragment) :
    Except WireError (Option Frame) × Option Partial :=
  let inconsistent := WireError.inconsistentFragment fragment.sequence
  match fragment.refused with
  | some e => (.error e, entry)
  | none =>
    if ∃ p ∈ entry, p.disagrees fragment then (.error inconsistent, none)
    else
      let (kept, p) := (entry.getD (Partial.opened fragment 0)).take fragment
      if kept = .tooMuch then (.error inconsistent, some p)
      else if p.pieces.size < p.count.toNat then (.ok none, some p)
      else finish sort fragment.sequence p

namespace Reassembler

variable {K : Type} [Ord K] [TransOrd K]

/-- The entry of a key without its age. -/
def view (s : Reassembler K) (key : Key K) : Option Partial := s.partials[key]?.map Partial.ageless

@[simp] theorem view_new (key : Key K) : (new : Reassembler K).view key = none := by
  simp [view, new]

/-! ### What each part of a feed leaves -/

@[simp] theorem touch_partials (s : Reassembler K) (key : Key K) :
    (s.touch key).partials = s.partials := rfl

@[simp] theorem touch_clock (s : Reassembler K) (key : Key K) :
    (s.touch key).clock = s.clock + 1 := rfl

@[simp] theorem touch_evicted (s : Reassembler K) (key : Key K) :
    (s.touch key).evicted = s.evicted := rfl

theorem remove_of_some {s : Reassembler K} {key : Key K} {p : Partial}
    (h : s.partials[key]? = some p) :
    (s.remove key).1 = some p ∧ (s.remove key).2.partials = s.partials.erase key := by
  simp [remove, h]

@[simp] theorem remove_clock (s : Reassembler K) (key : Key K) :
    (s.remove key).2.clock = s.clock := by
  unfold remove; split <;> rfl

@[simp] theorem remove_evicted (s : Reassembler K) (key : Key K) :
    (s.remove key).2.evicted = s.evicted := by
  unfold remove; split <;> rfl

variable [LawfulEqOrd K]

theorem remove_partials (s : Reassembler K) (key : Key K) :
    (s.remove key).2.partials = s.partials.erase key := by
  cases h : s.partials[key]? with
  | some p => exact (remove_of_some h).2
  | none =>
    rw [remove, h]
    refine ExtTreeMap.ext_getElem? fun k => ?_
    rw [ExtTreeMap.getElem?_erase]
    split_ifs with hk
    · rw [← ExtTreeMap.getElem?_congr hk, h]
    · rfl

theorem remove_partials_self (s : Reassembler K) (key : Key K) :
    (s.remove key).2.partials[key]? = none := by
  rw [remove_partials, ExtTreeMap.getElem?_erase_self]

theorem remove_partials_of_ne (s : Reassembler K) {key k : Key K} (h : k ≠ key) :
    (s.remove key).2.partials[k]? = s.partials[k]? := by
  rw [remove_partials, ExtTreeMap.getElem?_erase, if_neg]
  exact fun heq => h (Std.LawfulEqCmp.eq_of_compare heq).symm

variable [DecidableEq K]

omit [TransOrd K] [LawfulEqOrd K] in
theorem ne_of_oldest {s : Reassembler K} {keep k : Key K} (h : s.oldest keep = some k) :
    k ≠ keep := by
  have := List.find?_some h
  simpa using this

omit [LawfulEqOrd K] in
/-- What evictions of other keys keep, `makeSpace` keeps. -/
theorem makeSpaceLoop_induction {P : Reassembler K → Prop} {keep : Key K} {incoming : ℕ}
    (evicts : ∀ s k, k ≠ keep → P s → P (s.evict k)) (fuel : ℕ) {s : Reassembler K} (hs : P s) :
    P (makeSpaceLoop keep incoming fuel s) := by
  induction fuel generalizing s with
  | zero => exact hs
  | succ fuel ih =>
    rw [makeSpaceLoop]
    split_ifs with hover
    · cases hold : s.oldest keep with
      | none => exact hs
      | some k => exact ih (evicts s k (ne_of_oldest hold) hs)
    · exact hs

/-- `makeSpace` leaves the entry it makes room for, and the clock. -/
theorem makeSpace_keep (s : Reassembler K) (keep : Key K) (incoming : ℕ) :
    (s.makeSpace keep incoming).partials[keep]? = s.partials[keep]? ∧
      (s.makeSpace keep incoming).clock = s.clock := by
  refine makeSpaceLoop_induction
    (P := fun t => t.partials[keep]? = s.partials[keep]? ∧ t.clock = s.clock) ?_ _ ⟨rfl, rfl⟩
  intro t k hk ⟨hentry, hclock⟩
  exact ⟨(remove_partials_of_ne t hk.symm).trans hentry, (remove_clock t k).trans hclock⟩

omit [LawfulEqOrd K] [DecidableEq K] in
theorem evict_evicted (s : Reassembler K) (key : Key K) :
    (s.evict key).evicted = s.evicted + 1 := by
  simp [evict]

omit [LawfulEqOrd K] in
theorem le_makeSpaceLoop_evicted (s : Reassembler K) (keep : Key K) (incoming fuel : ℕ) :
    s.evicted ≤ (makeSpaceLoop keep incoming fuel s).evicted :=
  makeSpaceLoop_induction (P := fun t => s.evicted ≤ t.evicted)
    (fun t k _ ht => by rw [evict_evicted]; omega) fuel le_rfl

omit [LawfulEqOrd K] in
/-- Where the count of evictions stays, `makeSpace` did nothing. -/
theorem makeSpace_eq_self (s : Reassembler K) (keep : Key K) (incoming : ℕ)
    (h : (s.makeSpace keep incoming).evicted = s.evicted) : s.makeSpace keep incoming = s := by
  rw [makeSpace, makeSpaceLoop] at h ⊢
  split_ifs at h ⊢ with hover
  · cases hold : s.oldest keep with
    | none => rfl
    | some k =>
      simp only [hold] at h
      have hle := le_makeSpaceLoop_evicted (s.evict k) keep incoming s.byAge.size
      rw [h, evict_evicted] at hle
      omega
  · rfl

/-! ### A feed as its own message sees it -/

/-- `gather` writes to the entry of its key as `take` does to that entry alone. -/
theorem gather_spec (s : Reassembler K) (key : Key K) (fragment : Fragment) :
    let alone := ((s.view key).getD (Partial.opened fragment 0)).take fragment
    (s.gather key fragment).1 = alone.1 ∧ (s.gather key fragment).2.1.ageless = alone.2 ∧
      (s.gather key fragment).2.2.partials[key]? = some (s.gather key fragment).2.1 := by
  obtain ⟨hentry, hclock⟩ := makeSpace_keep (s.touch key) key fragment.payload.length
  have hview : (s.view key).getD (Partial.opened fragment 0) =
      ((s.partials[key]?).getD (Partial.opened fragment (s.clock + 1))).ageless := by
    cases h : s.partials[key]? <;> simp [view, h, Partial.ageless, Partial.opened]
  rw [touch_partials] at hentry
  rw [touch_clock] at hclock
  simp only [gather, hentry, hclock, Partial.take_touched, ExtTreeMap.getElem?_insert_self,
    hview, Partial.take_ageless, and_true, true_and]
  rfl

/-- **What a feed answers, and leaves of its own entry, is what `Assembly.step` says.** -/
theorem feed_view (sort : UnstableSort) (s : Reassembler K) (source : K) (fragment : Fragment) :
    ((s.feed sort source fragment).1,
        (s.feed sort source fragment).2.view (source, fragment.sequence)) =
      Assembly.step sort (s.view (source, fragment.sequence)) fragment := by
  set key : Key K := (source, fragment.sequence) with hkey
  cases hrefused : fragment.refused with
  | some e => simp [feed, Assembly.step, hrefused]
  | none =>
    have hagree : (∃ p ∈ s.view key, p.disagrees fragment) ↔
        ∃ p ∈ s.partials[key]?, p.disagrees fragment := by
      simp [view, Partial.ageless, Partial.disagrees]
    obtain ⟨hkept, hentry, hpartials⟩ := s.gather_spec key fragment
    simp only [feed, Assembly.step, hrefused, ← hkey, hagree, ← hkept, ← hentry]
    generalize s.gather key fragment = g at hpartials
    obtain ⟨kept, entry, t⟩ := g
    have hview : t.view key = some entry.ageless := by rw [view, hpartials]; rfl
    obtain ⟨u, hu⟩ : ∃ u, t.remove key = (some entry, u) :=
      ⟨(t.remove key).2, Prod.ext (remove_of_some hpartials).1 rfl⟩
    have hgone : u.view key = none := by
      have := t.remove_partials_self key
      rw [hu] at this
      rw [view, this]; rfl
    by_cases hdis : ∃ p ∈ s.partials[key]?, p.disagrees fragment
    · have hremoved : (s.remove key).2.view key = none := by
        rw [view, remove_partials_self]; rfl
      simp only [hdis, if_true, hremoved]
    · have hassemble : entry.ageless.assemble sort = entry.assemble sort := rfl
      have hsize : entry.ageless.pieces.size < entry.ageless.count.toNat ↔
        entry.pieces.size < entry.count.toNat := Iff.rfl
      simp only [hdis, if_false, Assembly.finish, hassemble, hsize, hu]
      split_ifs with hmuch hfew
      · rw [hview]
      · rw [hview]
      · cases entry.assemble sort <;> simp only [hgone]

/-! ### A feed as another message sees it -/

omit [LawfulEqOrd K] in
/-- The tables a feed may leave, each behind the guards it stands behind: all as it was, the table
without the key of the feed, or what is gathered, with its key or without it. -/
theorem feed_state (sort : UnstableSort) (s : Reassembler K) (source : K) (fragment : Fragment) :
    let key := (source, fragment.sequence)
    let gathered := (s.gather key fragment).2.2
    (fragment.refused ≠ none ∧ (s.feed sort source fragment).2 = s) ∨
    (fragment.refused = none ∧ (∃ p ∈ s.partials[key]?, p.disagrees fragment) ∧
      (s.feed sort source fragment).2 = (s.remove key).2) ∨
    (fragment.refused = none ∧ (¬ ∃ p ∈ s.partials[key]?, p.disagrees fragment) ∧
      ((s.feed sort source fragment).2 = gathered ∨
        (s.feed sort source fragment).2 = (gathered.remove key).2)) := by
  intro key gathered
  unfold feed
  cases fragment.refused with
  | some e => exact .inl ⟨nofun, rfl⟩
  | none =>
    dsimp only
    split_ifs with hagrees
    · exact .inr (.inl ⟨rfl, hagrees, rfl⟩)
    · exact .inr (.inr ⟨rfl, hagrees, .inl rfl⟩)
    · exact .inr (.inr ⟨rfl, hagrees, .inl rfl⟩)
    · refine .inr (.inr ⟨rfl, hagrees, .inr ?_⟩)
      show _ = (gathered.remove key).2
      rcases gathered.remove key with ⟨_ | p, u⟩
      · rfl
      · dsimp only
        cases p.assemble sort <;> rfl

omit [LawfulEqOrd K] in
theorem le_feed_evicted (sort : UnstableSort) (s : Reassembler K) (source : K)
    (fragment : Fragment) : s.evicted ≤ (s.feed sort source fragment).2.evicted := by
  have hgather : s.evicted ≤ (s.gather (source, fragment.sequence) fragment).2.2.evicted :=
    le_makeSpaceLoop_evicted (s.touch (source, fragment.sequence)) _ _ _
  rcases s.feed_state sort source fragment with ⟨-, h⟩ | ⟨-, -, h⟩ | ⟨-, -, h | h⟩ <;> rw [h]
  · rw [remove_evicted]
  · exact hgather
  · rw [remove_evicted]; exact hgather

/-- A feed that evicts nothing changes no entry but its own. -/
theorem feed_partials_of_ne (sort : UnstableSort) (s : Reassembler K) (source : K)
    (fragment : Fragment) {k : Key K} (hk : k ≠ (source, fragment.sequence))
    (hevicted : (s.feed sort source fragment).2.evicted = s.evicted) :
    (s.feed sort source fragment).2.partials[k]? = s.partials[k]? := by
  set key : Key K := (source, fragment.sequence) with hkey
  have hgather : (s.gather key fragment).2.2.evicted = s.evicted →
      (s.gather key fragment).2.2.partials[k]? = s.partials[k]? := by
    intro hsame
    have hspace := makeSpace_eq_self (s.touch key) key fragment.payload.length hsame
    have hne : ¬ keyCmp key k = .eq := fun heq => hk (LawfulEqCmp.eq_of_compare heq).symm
    rw [gather, hspace]
    exact (ExtTreeMap.getElem?_insert).trans (if_neg hne)
  rcases s.feed_state sort source fragment with ⟨-, h⟩ | ⟨-, -, h⟩ | ⟨-, -, h | h⟩ <;> rw [h] at hevicted ⊢
  · exact s.remove_partials_of_ne hk
  · exact hgather hevicted
  · rw [remove_partials_of_ne _ hk]
    exact hgather (by rwa [remove_evicted] at hevicted)

theorem feed_view_of_ne (sort : UnstableSort) (s : Reassembler K) (source : K)
    (fragment : Fragment) {k : Key K} (hk : k ≠ (source, fragment.sequence))
    (hevicted : (s.feed sort source fragment).2.evicted = s.evicted) :
    (s.feed sort source fragment).2.view k = s.view k := by
  rw [view, view, s.feed_partials_of_ne sort source fragment hk hevicted]

/-- A feed leaves another entry as it was, or evicts it. -/
theorem feed_view_or_none (sort : UnstableSort) (s : Reassembler K) (source : K)
    (fragment : Fragment) {k : Key K} (hk : k ≠ (source, fragment.sequence)) :
    (s.feed sort source fragment).2.view k = s.view k ∨
      (s.feed sort source fragment).2.view k = none := by
  set key : Key K := (source, fragment.sequence) with hkey
  have hspace : ∀ incoming, ((s.touch key).makeSpace key incoming).view k = s.view k ∨
      ((s.touch key).makeSpace key incoming).view k = none := fun incoming => by
    refine makeSpaceLoop_induction (P := fun t => t.view k = s.view k ∨ t.view k = none) ?_ _
      (.inl rfl)
    intro t gone _ ht
    by_cases hgone : k = gone
    · right
      rw [hgone, view]
      exact congrArg _ (t.remove_partials_self gone)
    · have hsame : (t.evict gone).view k = t.view k :=
        congrArg _ (t.remove_partials_of_ne hgone)
      rw [hsame]
      exact ht
  have hgather : (s.gather key fragment).2.2.view k = s.view k ∨
      (s.gather key fragment).2.2.view k = none := by
    have hne : ¬ keyCmp key k = .eq := fun heq => hk (LawfulEqCmp.eq_of_compare heq).symm
    have hinsert : (s.gather key fragment).2.2.view k =
        ((s.touch key).makeSpace key fragment.payload.length).view k :=
      congrArg _ ((ExtTreeMap.getElem?_insert).trans (if_neg hne))
    rw [hinsert]
    exact hspace _
  rcases s.feed_state sort source fragment with ⟨-, h⟩ | ⟨-, -, h⟩ | ⟨-, -, h | h⟩ <;> rw [h]
  · exact .inl rfl
  · exact .inl (congrArg _ (s.remove_partials_of_ne hk))
  · exact hgather
  · rw [show ((s.gather key fragment).2.2.remove key).2.view k = (s.gather key fragment).2.2.view k
      from congrArg _ (remove_partials_of_ne _ hk)]
    exact hgather

/-- What holds of every entry, and of what the fragment's own one becomes, holds of every entry behind
a feed. -/
theorem feed_views {P : Partial → Prop} {sort : UnstableSort} {s : Reassembler K} {source : K}
    {fragment : Fragment} (h : ∀ k, ∀ p ∈ s.view k, P p)
    (hown : ∀ p ∈ (Assembly.step sort (s.view (source, fragment.sequence)) fragment).2, P p) :
    ∀ k, ∀ p ∈ (s.feed sort source fragment).2.view k, P p := by
  intro k
  by_cases hk : k = (source, fragment.sequence)
  · subst hk
    rwa [show (s.feed sort source fragment).2.view (source, fragment.sequence) = _ from
      congrArg Prod.snd (s.feed_view sort source fragment)]
  · rcases s.feed_view_or_none sort source fragment hk with hsame | hnone
    · rw [hsame]
      exact h k
    · rw [hnone]
      exact nofun

end Reassembler

end LcmBus.Udpm
