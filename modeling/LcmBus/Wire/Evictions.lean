import LcmBus.Lib.Loop
import LcmBus.Wire.Rejected

/-!
# What a reassembler evicts

The loop of `make_space` takes messages out of the table until there is room, the one that waited
longest first.

* `makeSpaceKeys` and `evictedBy` are the keys that the loop, and a feed, evict, in turn;
* `lastHeard` is where in a run the last fragment of a key came that was not refused for itself;
* `InAgeOrder`: the ages of the table are in the order of `lastHeard`, kept by every feed;
* `created` and `settled` count the entries that came into the table, and those that the feeds of
  their own key took out; `evicts_in_age_order` is what a run evicts, and the balance of all of them.
-/

open Std (ExtTreeMap TransOrd LawfulEqCmp LawfulEqOrd)

namespace LcmBus.Udpm

namespace Reassembler

variable {K : Type} [Ord K] [TransOrd K] [DecidableEq K]

/-- The keys that the loop of `make_space` evicts, one behind the other. -/
def makeSpaceKeys (keep : Key K) (incoming : ℕ) : ℕ → Reassembler K → List (Key K)
  | 0, _ => []
  | fuel + 1, s =>
    if s.overLimits incoming then
      match s.oldest keep with
      | none => []
      | some oldest => oldest :: makeSpaceKeys keep incoming fuel (s.evict oldest)
    else []

/-- Whether a feed comes to `make_space`. -/
def Gathers (s : Reassembler K) (fed : Fed K) : Prop :=
  fed.2.refused = none ∧ ¬ ∃ p ∈ s.partials[fed.key]?, p.disagrees fed.2

instance (s : Reassembler K) (fed : Fed K) : Decidable (s.Gathers fed) :=
  inferInstanceAs (Decidable (_ ∧ _))

/-- The keys that a feed evicts. -/
def evictedBy (s : Reassembler K) (fed : Fed K) : List (Key K) :=
  if s.Gathers fed then
    makeSpaceKeys fed.key fed.2.payload.length ((s.touch fed.key).byAge.size + 1) (s.touch fed.key)
  else []

/-- A feed makes an entry. -/
def Creates (s : Reassembler K) (fed : Fed K) : Prop :=
  fed.2.refused = none ∧ fed.key ∉ s.partials

instance (s : Reassembler K) (fed : Fed K) : Decidable (s.Creates fed) :=
  inferInstanceAs (Decidable (_ ∧ _))

/-- A feed leaves no entry of its own key, which was there or which it made. -/
def Settles (sort : UnstableSort) (s : Reassembler K) (fed : Fed K) : Prop :=
  fed.2.refused = none ∧ fed.key ∉ (feedStep sort s fed).2.partials

instance (sort : UnstableSort) (s : Reassembler K) (fed : Fed K) : Decidable (s.Settles sort fed) :=
  inferInstanceAs (Decidable (_ ∧ _))

/-- The entries that a run of feeds makes. -/
def created (sort : UnstableSort) (feds : List (Fed K)) : ℕ :=
  Machine.total (feedStep sort) (fun s fed => if s.Creates fed then 1 else 0) new feds

/-- The entries that the feeds of their own keys take out. -/
def settled (sort : UnstableSort) (feds : List (Fed K)) : ℕ :=
  Machine.total (feedStep sort) (fun s fed => if s.Settles sort fed then 1 else 0) new feds

/-- Where in a run the last feed of a key is that `counts`, the first feed being number one.  Zero where
there is none. -/
def lastOf (counts : Fed K → Prop) [DecidablePred counts] (feds : List (Fed K)) (key : Key K) : ℕ :=
  feds.length - feds.reverse.findIdx fun fed => fed.key = key ∧ counts fed

/-- Where the last feed of a key is, refused for itself or not. -/
def lastFed (feds : List (Fed K)) (key : Key K) : ℕ := lastOf (fun _ => True) feds key

/-- Where the last feed of a key is that is not refused for itself. -/
def lastHeard (feds : List (Fed K)) (key : Key K) : ℕ :=
  lastOf (fun fed => fed.2.refused = none) feds key

/-- One turn of the loop of `make_space`. -/
def makeSpaceTurn (keep : Key K) (incoming : ℕ) (s : Reassembler K) : Reassembler K × Option Unit :=
  if s.overLimits incoming then
    match s.oldest keep with
    | none => (s, some ())
    | some oldest => (s.evict oldest, none)
  else (s, some ())

variable {s : Reassembler K} {keep : Key K} {incoming fuel : ℕ}

/-! ### The loop and its keys -/

theorem makeSpaceTurn_of_end (h : ¬ s.overLimits incoming ∨ s.oldest keep = none) :
    makeSpaceTurn keep incoming s = (s, some ()) := by
  rw [makeSpaceTurn]
  split_ifs with hover
  · rw [h.resolve_left (not_not.2 hover)]
  · rfl

theorem after_makeSpaceTurn (s : Reassembler K) (keep : Key K) (incoming fuel : ℕ) :
    (Loop.after (makeSpaceTurn keep incoming) fuel s).1 = makeSpaceLoop keep incoming fuel s := by
  induction fuel generalizing s with
  | zero => rfl
  | succ fuel ih =>
    rw [Loop.after, makeSpaceTurn, makeSpaceLoop]
    split_ifs with hover
    · cases s.oldest keep with
      | none => rfl
      | some k => exact ih (s.evict k)
    · rfl

theorem makeSpaceLoop_eq_foldl :
    makeSpaceLoop keep incoming fuel s = (makeSpaceKeys keep incoming fuel s).foldl evict s := by
  induction fuel generalizing s with
  | zero => rfl
  | succ fuel ih =>
    rw [makeSpaceLoop, makeSpaceKeys]
    split_ifs with hover
    · cases s.oldest keep with
      | none => rfl
      | some k => exact ih
    · rfl

/-- Each turn of the loop finds its limits passed, and evicts the oldest message but the kept one. -/
theorem makeSpaceKeys_turn {before after : List (Key K)} {k : Key K}
    (h : makeSpaceKeys keep incoming fuel s = before ++ k :: after) :
    (before.foldl evict s).overLimits incoming ∧ (before.foldl evict s).oldest keep = some k := by
  induction fuel generalizing s before with
  | zero => simp [makeSpaceKeys] at h
  | succ fuel ih =>
    rw [makeSpaceKeys] at h
    split_ifs at h with hover
    · cases hold : s.oldest keep with
      | none => simp [hold] at h
      | some j =>
        rw [hold] at h
        cases before with
        | nil =>
          obtain ⟨rfl, -⟩ := List.cons.inj h
          exact ⟨hover, hold⟩
        | cons i before =>
          obtain ⟨rfl, hrest⟩ := List.cons.inj h
          rw [List.foldl_cons]
          exact ih hrest
    · simp at h

theorem evictedBy_of_gathers {fed : Fed K} (h : s.Gathers fed) : s.evictedBy fed =
    makeSpaceKeys fed.key fed.2.payload.length ((s.touch fed.key).byAge.size + 1)
      (s.touch fed.key) := if_pos h

theorem evictedBy_of_not_gathers {fed : Fed K} (h : ¬ s.Gathers fed) : s.evictedBy fed = [] :=
  if_neg h

omit [DecidableEq K] in
theorem foldl_evict_evicted (keys : List (Key K)) :
    (keys.foldl evict s).evicted = s.evicted + keys.length := by
  induction keys generalizing s with
  | nil => rfl
  | cons k keys ih =>
    rw [List.foldl_cons, ih, evict_evicted, List.length_cons]
    omega

variable [LawfulEqOrd K]

/-- Evictions take their own keys out of the table, and no other. -/
theorem foldl_evict_partials (keys : List (Key K)) (k : Key K) :
    (keys.foldl evict s).partials[k]? = if k ∈ keys then none else s.partials[k]? := by
  induction keys generalizing s with
  | nil => simp
  | cons j keys ih =>
    rw [List.foldl_cons, ih]
    by_cases hj : k = j
    · subst hj
      have hgone : (s.evict k).partials[k]? = none := s.remove_partials_self k
      simp [hgone]
    · have hstays : (s.evict j).partials[k]? = s.partials[k]? := s.remove_partials_of_ne hj
      simp [hj, hstays]

omit [DecidableEq K] in
/-- Evictions of other keys leave the age of the one that is fed. -/
theorem Aged.foldl_evict (h : Aged keep s) {keys : List (Key K)} (hkeys : ∀ k ∈ keys, k ≠ keep) :
    Aged keep (keys.foldl Reassembler.evict s) := by
  induction keys generalizing s with
  | nil => exact h
  | cons k keys ih =>
    exact ih (h.evict (hkeys k (by simp))) fun j hj => hkeys j (by simp [hj])

omit [LawfulEqOrd K] in
/-- The message that is evicted is in the table, and no other but the kept one is as old. -/
theorem Aged.oldest_spec (h : Aged keep s) {k : Key K} (hold : s.oldest keep = some k) :
    k ≠ keep ∧ ∃ p, s.partials[k]? = some p ∧ ∀ j q, j ≠ keep → j ≠ k →
      s.partials[j]? = some q → p.touched < q.touched := by
  have hk := ne_of_oldest hold
  rw [oldest, List.find?_map] at hold
  obtain ⟨⟨age, i⟩, hfirst, hi⟩ := Option.map_eq_some_iff.1 hold
  obtain rfl : i = k := hi
  obtain ⟨-, earlier, later, hlist, hearlier⟩ := List.find?_eq_some_iff_append.1 hfirst
  have hage : s.byAge[age]? = some i :=
    ExtTreeMap.mem_toList_iff_getElem?_eq_some.1 (by simp [hlist])
  rcases (h.byAge age i).1 hage with ⟨rfl, -⟩ | ⟨-, p, hp, rfl⟩
  · exact absurd rfl hk
  refine ⟨hk, p, hp, fun j q hj hne hq => ?_⟩
  have hmem : (q.touched, j) ∈ s.byAge.toList :=
    ExtTreeMap.mem_toList_iff_getElem?_eq_some.2 ((h.byAge _ _).2 (.inr ⟨hj, q, hq, rfl⟩))
  have hordered := ExtTreeMap.ordered_keys_toList (t := s.byAge)
  rw [hlist] at hmem hordered
  -- What is before it in the index is the kept one alone.
  rcases List.mem_append.1 hmem with hmem | hmem
  · have := hearlier _ hmem
    simp [hj] at this
  rcases List.mem_cons.1 hmem with heq | hmem
  · exact absurd (congrArg Prod.snd heq) hne
  · have hlt := (List.pairwise_cons.1 (List.pairwise_append.1 hordered).2.1).1 _ hmem
    exact Nat.compare_eq_lt.1 hlt

/-- The loop ends by itself, where `makeSpace` has its result. -/
theorem Aged.makeSpace_ends (h : Aged keep s) (incoming : ℕ) :
    ∃ n, Loop.after (makeSpaceTurn keep incoming) n s = (s.makeSpace keep incoming, some ()) := by
  obtain ⟨-, hend⟩ := h.makeSpaceLoop incoming (Nat.lt_succ_self s.byAge.size)
  have hafter := after_makeSpaceTurn s keep incoming (s.byAge.size + 1)
  rw [← makeSpace] at hafter hend
  rcases hloop : Loop.after (makeSpaceTurn keep incoming) (s.byAge.size + 1) s with ⟨t, _ | ⟨⟩⟩
  · rw [hloop] at hafter
    obtain rfl : t = _ := hafter
    refine ⟨s.byAge.size + 1 + 1, (Loop.after_add_of_none hloop).trans ?_⟩
    exact Loop.after_succ_of_some (makeSpaceTurn_of_end hend)
  · rw [hloop] at hafter
    obtain rfl : t = _ := hafter
    exact ⟨_, hloop⟩

/-- Each key that is evicted takes one message out of the table. -/
theorem Aged.inFlight_makeSpaceLoop (h : Aged keep s) (incoming fuel : ℕ) :
    (Reassembler.makeSpaceLoop keep incoming fuel s).inFlight +
      (makeSpaceKeys keep incoming fuel s).length = s.inFlight := by
  induction fuel generalizing s with
  | zero => rfl
  | succ fuel ih =>
    rw [Reassembler.makeSpaceLoop, makeSpaceKeys]
    split_ifs with hover
    · cases hold : s.oldest keep with
      | none => rfl
      | some k =>
        obtain ⟨hk, p, hp, -⟩ := h.oldest_spec hold
        have hsize : (s.evict k).inFlight + 1 = s.inFlight := by
          rw [inFlight, inFlight, OrderedMap.size_of_getElem? hp, Reassembler.evict,
            remove_of_getElem? hp]
        have := ih (h.evict hk)
        rw [List.length_cons]
        dsimp only
        omega
    · rfl

/-! ### A feed -/

omit [LawfulEqOrd K] in
/-- What a feed leaves: all as it was, or the table without its own key, or what it gathered, with its
own key or without it. -/
theorem feedStep_state (sort : UnstableSort) (s : Reassembler K) (fed : Fed K) :
    (fed.2.refused ≠ none ∧ (feedStep sort s fed).2 = s) ∨
    (fed.2.refused = none ∧ ¬ s.Gathers fed ∧ (∃ p, s.partials[fed.key]? = some p) ∧
      (feedStep sort s fed).2 = (s.remove fed.key).2) ∨
    (s.Gathers fed ∧ ((feedStep sort s fed).2 = (s.gather fed.key fed.2).2.2 ∨
      (feedStep sort s fed).2 = ((s.gather fed.key fed.2).2.2.remove fed.key).2)) := by
  obtain ⟨hrefused, hs⟩ | ⟨hrefused, hagrees, hs⟩ | ⟨hrefused, hagrees, hs⟩ :=
    s.feed_state sort fed.1 fed.2
  · exact .inl ⟨hrefused, hs⟩
  · exact .inr (.inl ⟨hrefused, fun h => h.2 hagrees, hagrees.imp fun _ h => h.1, hs⟩)
  · exact .inr (.inr ⟨⟨hrefused, hagrees⟩, hs⟩)

/-- What a feed evicts, in turn: the message that was not touched for the longest time, of those that
are not evicted yet and not its own. -/
theorem Books.evictedBy_turn (h : Books s) {fed : Fed K} {before after : List (Key K)} {k : Key K}
    (hkeys : s.evictedBy fed = before ++ k :: after) :
    k ≠ fed.key ∧ k ∉ before ∧ ∃ p, s.partials[k]? = some p ∧ ∀ j q, j ≠ fed.key → j ∉ before →
      j ≠ k → s.partials[j]? = some q → p.touched < q.touched := by
  have hgathers : s.Gathers fed := by
    by_contra hno
    simp [evictedBy_of_not_gathers hno] at hkeys
  rw [evictedBy_of_gathers hgathers] at hkeys
  have hothers : ∀ j ∈ before, j ≠ fed.key := fun j hj => by
    obtain ⟨first, rest, rfl⟩ := List.append_of_mem hj
    rw [List.append_assoc, List.cons_append] at hkeys
    exact ne_of_oldest (makeSpaceKeys_turn hkeys).2
  have haged := (h.touch fed.key).foldl_evict hothers
  obtain ⟨hk, p, hp, hold⟩ := haged.oldest_spec (makeSpaceKeys_turn hkeys).2
  rw [foldl_evict_partials] at hp
  split_ifs at hp with hmem
  refine ⟨hk, hmem, p, hp, fun j q hj hnot hne hq => hold j q hj hne ?_⟩
  rw [foldl_evict_partials, if_neg hnot]
  exact hq

/-- What is gathered is the table without what is evicted, with the entry of the fragment. -/
theorem Books.gather_state (h : Books s) {fed : Fed K} (hgathers : s.Gathers fed) :
    let t := (s.gather fed.key fed.2).2.2
    (∀ k ≠ fed.key, t.partials[k]? = if k ∈ s.evictedBy fed then none else s.partials[k]?) ∧
    t.evicted = s.evicted + (s.evictedBy fed).length ∧
    t.inFlight + (s.evictedBy fed).length =
      s.inFlight + (if fed.key ∈ s.partials then 0 else 1) ∧
    ∃ entry, t.partials[fed.key]? = some entry ∧ entry.touched = s.clock + 1 := by
  intro t
  have hmake : makeSpace (s.touch fed.key) fed.key fed.2.payload.length =
      (s.evictedBy fed).foldl Reassembler.evict (s.touch fed.key) := by
    rw [evictedBy_of_gathers hgathers, makeSpace, makeSpaceLoop_eq_foldl]
  have hcount := (h.touch fed.key).inFlight_makeSpaceLoop fed.2.payload.length
    ((s.touch fed.key).byAge.size + 1)
  rw [← evictedBy_of_gathers hgathers, ← makeSpace] at hcount
  obtain ⟨hkeep, hclock⟩ := makeSpace_keep (s.touch fed.key) fed.key fed.2.payload.length
  refine ⟨fun k hk => ?_, ?_, ?_, ?_⟩
  · have hne : ¬ keyCmp fed.key k = .eq := fun heq => hk (LawfulEqCmp.eq_of_compare heq).symm
    refine (ExtTreeMap.getElem?_insert).trans ((if_neg hne).trans ?_)
    rw [hmake, foldl_evict_partials]
    rfl
  · show (makeSpace _ _ _).evicted = _
    rw [hmake, foldl_evict_evicted, touch_evicted]
  · have hmem : fed.key ∈ (makeSpace (s.touch fed.key) fed.key fed.2.payload.length).partials ↔
        fed.key ∈ s.partials := by
      rw [OrderedMap.mem_congr hkeep, touch_partials]
    have hsize : t.inFlight =
        (makeSpace (s.touch fed.key) fed.key fed.2.payload.length).inFlight +
          if fed.key ∈ s.partials then 0 else 1 := by
      refine ExtTreeMap.size_insert.trans ?_
      by_cases hkey : fed.key ∈ s.partials
      · rw [if_pos hkey]
        exact if_pos (hmem.2 hkey)
      · rw [if_neg hkey]
        exact if_neg (mt hmem.1 hkey)
    rw [hsize, ← show (s.touch fed.key).inFlight = s.inFlight from rfl]
    omega
  · refine ⟨_, (s.gather_spec fed.key fed.2).2.2, ?_⟩
    simp only [Reassembler.gather, Partial.take_touched]
    exact hclock

/-- What a feed leaves of the other messages, and the balance of what it makes, settles and evicts. -/
theorem Books.feedStep_frame (h : Books s) (sort : UnstableSort) (fed : Fed K) :
    let t := (feedStep sort s fed).2
    (∀ k ≠ fed.key, t.partials[k]? = if k ∈ s.evictedBy fed then none else s.partials[k]?) ∧
    t.evicted = s.evicted + (s.evictedBy fed).length ∧
    t.inFlight + (s.evictedBy fed).length + (if s.Settles sort fed then 1 else 0) =
      s.inFlight + (if s.Creates fed then 1 else 0) := by
  intro t
  rcases feedStep_state sort s fed with ⟨hrefused, ht⟩ | ⟨hrefused, hno, ⟨p, hp⟩, ht⟩ | ⟨hgathers, ht⟩
  · have hno : ¬ s.Gathers fed := fun hg => hrefused hg.1
    rw [evictedBy_of_not_gathers hno, show t = s from ht, if_neg fun hs => hrefused hs.1,
      if_neg fun hs => hrefused hs.1]
    simp
  · have hgone : fed.key ∉ t.partials := by
      rw [show t = _ from ht, remove_partials]
      simp
    have hmem : fed.key ∈ s.partials := OrderedMap.mem_of_getElem? hp
    have hsize : t.inFlight + 1 = s.inFlight := by
      rw [show t = _ from ht, inFlight, remove_of_getElem? hp]
      exact (OrderedMap.size_of_getElem? hp).symm
    rw [evictedBy_of_not_gathers hno, if_pos ⟨hrefused, hgone⟩, if_neg fun hs => hs.2 hmem]
    refine ⟨fun k hk => ?_, ?_, hsize⟩
    · rw [show t = _ from ht, s.remove_partials_of_ne hk]
      simp
    · rw [show t = _ from ht, remove_evicted, List.length_nil, Nat.add_zero]
  · obtain ⟨hothers, hevicted, hcount, entry, hentry, -⟩ := h.gather_state hgathers
    have hcreates : (if s.Creates fed then 1 else 0) = if fed.key ∈ s.partials then 0 else 1 := by
      by_cases hmem : fed.key ∈ s.partials <;> simp [Creates, hgathers.1, hmem]
    rw [hcreates]
    rcases ht with ht | ht
    · have hstays : fed.key ∈ t.partials := by
        rw [show t = _ from ht]
        exact OrderedMap.mem_of_getElem? hentry
      rw [if_neg fun hs => hs.2 hstays, show t = _ from ht]
      exact ⟨hothers, hevicted, hcount⟩
    · have hgone : fed.key ∉ t.partials := by
        rw [show t = _ from ht, remove_partials]
        simp
      have hsize : t.inFlight + 1 = (s.gather fed.key fed.2).2.2.inFlight := by
        rw [show t = _ from ht, inFlight, remove_of_getElem? hentry]
        exact (OrderedMap.size_of_getElem? hentry).symm
      rw [if_pos ⟨hgathers.1, hgone⟩]
      refine ⟨fun k hk => ?_, ?_, by omega⟩
      · rw [show t = _ from ht, remove_partials_of_ne _ hk]
        exact hothers k hk
      · rw [show t = _ from ht, remove_evicted]
        exact hevicted

/-! ### The order of the ages -/

omit [Ord K] [TransOrd K] [LawfulEqOrd K] in
theorem lastHeard_concat (feds : List (Fed K)) (fed : Fed K) (key : Key K) :
    lastHeard (feds ++ [fed]) key =
      if fed.key = key ∧ fed.2.refused = none then feds.length + 1 else lastHeard feds key := by
  rw [lastHeard, lastHeard, lastOf, lastOf, List.reverse_concat, List.findIdx_cons,
    List.length_append, List.length_singleton]
  split_ifs with h <;> simp [h]

omit [Ord K] [TransOrd K] [LawfulEqOrd K] in
theorem lastHeard_le (feds : List (Fed K)) (key : Key K) : lastHeard feds key ≤ feds.length :=
  Nat.sub_le _ _

/-- The ages of the table are in the order in which its keys were last heard of. -/
def InAgeOrder (s : Reassembler K) (feds : List (Fed K)) : Prop :=
  ∀ j k p q, s.partials[j]? = some p → s.partials[k]? = some q → p.touched < q.touched →
    lastHeard feds j < lastHeard feds k

/-- An entry behind a feed is one that was there and is not of its key, or that the feed touched. -/
theorem Books.feedStep_entry (h : Books s) (sort : UnstableSort) {fed : Fed K}
    (hrefused : fed.2.refused = none) {k : Key K} {p : Partial}
    (hp : (feedStep sort s fed).2.partials[k]? = some p) :
    (k ≠ fed.key ∧ s.partials[k]? = some p) ∨ (k = fed.key ∧ p.touched = s.clock + 1) := by
  by_cases hk : k = fed.key
  · right
    subst hk
    refine ⟨rfl, ?_⟩
    rcases feedStep_state sort s fed with ⟨hbad, -⟩ | ⟨-, -, -, ht⟩ | ⟨hgathers, ht⟩
    · exact absurd hrefused hbad
    · rw [ht, remove_partials_self] at hp
      cases hp
    · obtain ⟨-, -, -, entry, hentry, htouched⟩ := h.gather_state hgathers
      rcases ht with ht | ht <;> rw [ht] at hp
      · rw [hentry] at hp
        cases hp
        exact htouched
      · rw [remove_partials_self] at hp
        cases hp
  · left
    rw [(h.feedStep_frame sort fed).1 k hk] at hp
    split_ifs at hp
    exact ⟨hk, hp⟩

/-- A feed keeps the order of the ages: the key it is for is last in both. -/
theorem Books.inAgeOrder_step (h : Books s) (sort : UnstableSort) {feds : List (Fed K)}
    (horder : InAgeOrder s feds) (fed : Fed K) :
    InAgeOrder (feedStep sort s fed).2 (feds ++ [fed]) := by
  intro j k p q hp hq hlt
  rw [lastHeard_concat, lastHeard_concat]
  by_cases hrefused : fed.2.refused = none
  · have hj := lastHeard_le feds j
    obtain ⟨hjne, hp'⟩ | ⟨rfl, hptouched⟩ := h.feedStep_entry sort hrefused hp <;>
      rcases h.feedStep_entry sort hrefused hq with ⟨hkne, hq'⟩ | ⟨rfl, hqtouched⟩
    · simp only [hrefused, Ne.symm hjne, Ne.symm hkne, false_and, if_false]
      exact horder j k p q hp' hq' hlt
    · simp only [hrefused, Ne.symm hjne, and_true, if_false, if_true]
      omega
    · have := h.before k q hq'
      omega
    · omega
  · rcases feedStep_state sort s fed with ⟨-, hsame⟩ | ⟨hbad, -⟩ | ⟨hgathers, -⟩
    · rw [hsame] at hp hq
      simp only [hrefused, and_false, if_false]
      exact horder j k p q hp hq hlt
    · exact absurd hbad hrefused
    · exact absurd hgathers.1 hrefused

/-! ### Runs -/

/-- Behind a run, a feed evicts of the messages that are not its own, one behind the other, the one that
has waited longest by `last`. -/
def EvictsOldest (last : List (Fed K) → Key K → ℕ) (sort : UnstableSort) (feds : List (Fed K))
    (fed : Fed K) : Prop :=
  let s := Machine.final (feedStep sort) new feds
  ∀ before k after, s.evictedBy fed = before ++ k :: after →
    k ≠ fed.key ∧ k ∈ s.partials ∧ k ∉ before ∧
      ∀ j ∈ s.partials, j ≠ fed.key → j ∉ before → j ≠ k → last feds k < last feds j

theorem inAgeOrder_of_feeds (sort : UnstableSort) (feds : List (Fed K)) :
    InAgeOrder (Machine.final (feedStep sort) (new : Reassembler K) feds) feds := by
  induction feds using List.reverseRecOn with
  | nil =>
    intro j k p q hp
    simp [new] at hp
  | append_singleton feds fed ih =>
    rw [Machine.final_concat]
    exact (books_of_feeds sort feds).inAgeOrder_step sort ih fed

theorem evictsOldest_lastHeard (sort : UnstableSort) (feds : List (Fed K)) (fed : Fed K) :
    EvictsOldest lastHeard sort feds fed := by
  intro before k after hkeys
  obtain ⟨hk, hnew, p, hp, hold⟩ := (books_of_feeds sort feds).evictedBy_turn hkeys
  refine ⟨hk, OrderedMap.mem_of_getElem? hp, hnew, fun j hj hjkey hjnew hne => ?_⟩
  obtain ⟨q, hq⟩ := OrderedMap.mem_iff_exists.1 hj
  exact inAgeOrder_of_feeds sort feds k j p q hp hq (hold j q hjkey hjnew hne hq)

/-- Entries are made, and go by the feeds of their own keys or are evicted, or are there. -/
theorem created_eq (sort : UnstableSort) (feds : List (Fed K)) :
    let s := Machine.final (feedStep sort) (new : Reassembler K) feds
    created sort feds = s.inFlight + settled sort feds + s.evicted := by
  intro s
  have hbalance := Machine.final_balance (fun s : Reassembler K => s.inFlight + s.evicted)
    (fun s fed => if s.Creates fed then 1 else 0) (fun s fed => if s.Settles sort fed then 1 else 0)
    (fun s fed (h : Books s) => h.feed sort fed) (fun s fed h => ?_) feds books_new
  · have hempty : (new : Reassembler K).inFlight + (new : Reassembler K).evicted = 0 := by
      simp [new, inFlight]
    rw [hempty, Nat.zero_add] at hbalance
    rw [created, ← hbalance, settled]
    exact Nat.add_right_comm _ _ _
  · obtain ⟨-, hevicted, hcount⟩ := h.feedStep_frame sort fed
    omega

/-- An entry that goes by a feed of its own key is delivered, or the feed is answered that it does not
agree. -/
theorem Settles.answer {sort : UnstableSort} {fed : Fed K} (h : s.Settles sort fed) :
    (∃ frame, (feedStep sort s fed).1 = .ok (some frame)) ∨
      (feedStep sort s fed).1 = .error (.inconsistentFragment fed.2.sequence) := by
  have hview : ((feedStep sort s fed).1, (feedStep sort s fed).2.view fed.key) =
      Assembly.step sort (s.view fed.key) fed.2 := s.feed_view sort fed.1 fed.2
  have hnone : (feedStep sort s fed).2.view fed.key = none := by
    rw [view, ExtTreeMap.getElem?_eq_none h.2]
    rfl
  rw [hnone, Assembly.step, h.1] at hview
  dsimp only at hview
  split_ifs at hview with hdis hmuch hfew
  · exact .inr (congrArg Prod.fst hview)
  · cases congrArg Prod.snd hview
  · cases congrArg Prod.snd hview
  · rw [Assembly.finish] at hview
    split at hview
    · exact .inr (congrArg Prod.fst hview)
    · exact .inl ⟨_, congrArg Prod.fst hview⟩

/-- **Evictions are in the order in which the messages were last heard of, and all counted.**  Behind any
run, a feed changes no message of another key but those it evicts, each of which is one more in `evicted`;
it evicts the one of the other keys that a fragment came for longest ago, where a fragment that is refused
for itself has not come; and its loop ends.  The entries that were ever made are those that are there,
those that a feed of their own key took out, with a message or an error, and those that were evicted. -/
theorem evicts_in_age_order (sort : UnstableSort) (feds : List (Fed K)) (fed : Fed K) :
    let s := Machine.final (feedStep sort) (new : Reassembler K) feds
    let t := (feedStep sort s fed).2
    let incoming := fed.2.payload.length
    (∀ k ≠ fed.key, t.partials[k]? = if k ∈ s.evictedBy fed then none else s.partials[k]?) ∧
    t.evicted = s.evicted + (s.evictedBy fed).length ∧
    EvictsOldest lastHeard sort feds fed ∧
    (∃ n, Loop.after (makeSpaceTurn fed.key incoming) n (s.touch fed.key) =
      ((s.touch fed.key).makeSpace fed.key incoming, some ())) ∧
    (s.Settles sort fed → (∃ frame, (feedStep sort s fed).1 = .ok (some frame)) ∨
      (feedStep sort s fed).1 = .error (.inconsistentFragment fed.2.sequence)) ∧
    created sort feds = s.inFlight + settled sort feds + s.evicted := by
  intro s t incoming
  have hbooks : Books s := books_of_feeds sort feds
  obtain ⟨hothers, hevicted, -⟩ := hbooks.feedStep_frame sort fed
  exact ⟨hothers, hevicted, evictsOldest_lastHeard sort feds fed,
    (hbooks.touch fed.key).makeSpace_ends incoming, Settles.answer, created_eq sort feds⟩

/-- One message of two comes whole, and the other stays. -/
theorem evicts_in_age_order_of_two :
    let feds : List (Fed ℕ) := [(0, .ofTwo 7 1 2), (1, .ofTwo 7 0 3), (0, .ofTwo 7 0 1)]
    let s := Machine.final (feedStep .insertion) new feds
    s.inFlight = 1 ∧ settled .insertion feds = 1 ∧
      created .insertion feds = s.inFlight + settled .insertion feds + s.evicted := by
  intro feds s
  exact ⟨by decide +kernel, by decide +kernel,
    (evicts_in_age_order .insertion feds (0, .ofTwo 8 0 1)).2.2.2.2.2⟩

/-- A fragment with nearly all the bytes that may be held. -/
def flood (payload : Bytes) : Fragment :=
  { sequence := 7, total := 16777216, offset := 0, index := 0, count := 2, channel := some "A", payload }

/-- Two messages, and then a fragment of the first of them that is refused for itself. -/
def refusedLast : List (Fed ℕ) :=
  [(0, .ofTwo 7 1 2), (1, .ofTwo 7 1 2), (0, { Fragment.ofTwo 7 0 1 with count := 0 })]

theorem evictedBy_flood {payload : Bytes} (hlen : payload.length = 2 ^ 24 - 40) :
    (Machine.final (feedStep .insertion) new refusedLast).evictedBy (2, flood payload) = [(0, 7)] := by
  have hrefused : (flood payload).refused = none := by
    simp [Fragment.refused, flood, hlen, maxMessageLen]
  have hfresh : ((2, 7) : Key ℕ) ∉ (Machine.final (feedStep .insertion) new refusedLast).partials := by
    decide +kernel
  rw [evictedBy_of_gathers ⟨hrefused, ?_⟩, show (flood payload).payload.length = _ from hlen]
  · show makeSpaceKeys (2, 7) _ ((touch _ (2, 7)).byAge.size + 1) (touch _ (2, 7)) = _
    decide +kernel
  · rintro ⟨p, hp, -⟩
    rw [show Fed.key (2, flood payload) = (2, 7) from rfl, ExtTreeMap.getElem?_eq_none hfresh] at hp
    cases hp

/-- A fragment that is refused for itself does not make its message younger: the one that was fed last
is evicted. -/
theorem evicts_last_fed :
    ¬ EvictsOldest lastFed .insertion refusedLast (2, flood (List.replicate (2 ^ 24 - 40) 0)) := by
  intro h
  have hkeys := evictedBy_flood (List.length_replicate (n := 2 ^ 24 - 40) (a := (0 : UInt8)))
  have hlast := (h [] (0, 7) [] hkeys).2.2.2 (1, 7) (by decide +kernel) (by decide) (by simp) (by decide)
  revert hlast
  decide

end Reassembler

end LcmBus.Udpm
