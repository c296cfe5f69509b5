import LcmBus.Wire.Assembly

/-!
# Messages in flight do not interfere

All the messages of a reassembler share its clock, its age index and its budget.  As long as
nothing is evicted for that budget, a message is put together from its own fragments as though no
other message were there.

* `answersUnder`: what the feeds of one key are answered in a run of all keys;
* `answersUnder_eq`: they are the answers of `Assembly.step` to those feeds;
* `answersUnder_eq_alone`: so they are the answers a fresh reassembler gives to those feeds alone;
* `Alone`: a reassembler that heard one message only, which evicts nothing.
-/

open Std (ExtTreeMap TransOrd LawfulEqOrd)

namespace LcmBus.Udpm.Reassembler

variable {K : Type} [Ord K] [TransOrd K] [LawfulEqOrd K] [DecidableEq K]

/-- The feeds made under a key, in their sequence. -/
def under (key : Key K) (feds : List (Fed K)) : List (Fed K) := feds.filter (·.key = key)

/-- What the feeds made under a key are answered, in a run of all the feeds. -/
def answersUnder (sort : UnstableSort) (key : Key K) (s : Reassembler K) (feds : List (Fed K)) :
    List (Except WireError (Option Frame)) :=
  ((feds.zip (Machine.answers (feedStep sort) s feds)).filter (·.1.key = key)).map Prod.snd

/-- A run of one message, seen alone. -/
theorem answers_eq_assembly (sort : UnstableSort) {key : Key K} {feds : List (Fed K)}
    (hkey : ∀ fed ∈ feds, fed.key = key) (s : Reassembler K) :
    Machine.answers (feedStep sort) s feds =
      Machine.answers (Assembly.step sort) (s.view key) (feds.map Prod.snd) := by
  induction feds generalizing s with
  | nil => rfl
  | cons fed feds ih =>
    obtain rfl : fed.key = key := hkey fed (by simp)
    have hstep := s.feed_view sort fed.1 fed.2
    rw [Machine.answers_cons, List.map_cons, Machine.answers_cons,
      ih fun f hf => hkey f (by simp [hf]),
      show s.view fed.key = s.view (fed.1, fed.2.sequence) from rfl, ← hstep]
    rfl

/-- A run that evicts nothing answers the feeds of one key as `Assembly.step` does. -/
theorem answersUnder_eq (sort : UnstableSort) (key : Key K) (feds : List (Fed K))
    (s : Reassembler K)
    (hevicted : (Machine.final (feedStep sort) s feds).evicted = s.evicted) :
    answersUnder sort key s feds =
      Machine.answers (Assembly.step sort) (s.view key) ((under key feds).map Prod.snd) := by
  induction feds generalizing s with
  | nil => rfl
  | cons fed feds ih =>
    -- No feed lowers the count of evictions, so neither this one nor those behind it raise it.
    have hfirst : s.evicted ≤ (feedStep sort s fed).2.evicted := s.le_feed_evicted sort fed.1 fed.2
    have hrest : (feedStep sort s fed).2.evicted ≤
        (Machine.final (feedStep sort) (feedStep sort s fed).2 feds).evicted :=
      Machine.le_final (f := evicted) (fun t e => t.le_feed_evicted sort e.1 e.2) _ feds
    rw [Machine.final_cons] at hevicted
    have hthis : (feedStep sort s fed).2.evicted = s.evicted := by omega
    have htail := ih (feedStep sort s fed).2 (by omega)
    by_cases hfed : fed.key = key
    · subst hfed
      have hstep := s.feed_view sort fed.1 fed.2
      simp only [answersUnder, under, Machine.answers_cons, List.zip_cons_cons, List.filter_cons,
        decide_true, if_true, List.map_cons] at htail ⊢
      rw [htail, show s.view fed.key = s.view (fed.1, fed.2.sequence) from rfl, ← hstep]
      rfl
    · have hview : (feedStep sort s fed).2.view key = s.view key :=
        s.feed_view_of_ne sort fed.1 fed.2 (Ne.symm hfed) hthis
      rw [hview] at htail
      simpa [answersUnder, under, hfed] using htail

/-- **Nothing under one key is lost, changed or delivered for another key unless `evicted` says
so.** -/
theorem answersUnder_eq_alone (sort : UnstableSort) (feds : List (Fed K))
    (hevicted : (Machine.final (feedStep sort) new feds).evicted = (new : Reassembler K).evicted)
    (key : Key K) :
    answersUnder sort key new feds = Machine.answers (feedStep sort) new (under key feds) := by
  have hunder : ∀ fed ∈ under key feds, fed.key = key := fun fed hfed => by
    simpa [under] using (List.mem_filter.1 hfed).2
  rw [answersUnder_eq sort key feds new hevicted, answers_eq_assembly sort hunder]

/-- Two messages of two sources, their fragments in turn. -/
theorem answersUnder_eq_alone_of_two :
    let feds : List (Fed ℕ) :=
      [(0, .ofTwo 7 0 1), (1, .ofTwo 7 1 4), (1, .ofTwo 7 0 3), (0, .ofTwo 7 1 2)]
    answersUnder .insertion (0, 7) new feds =
      Machine.answers (feedStep .insertion) new (under (0, 7) feds) :=
  answersUnder_eq_alone .insertion _ (by decide +kernel) _

/-! ### One message only -/

/-- Every entry, and every age, is one of the key. -/
structure Alone (key : Key K) (s : Reassembler K) : Prop where
  partials : ∀ k ≠ key, s.partials[k]? = none
  byAge : ∀ (age : ℕ) k, s.byAge[age]? = some k → k = key

namespace Alone

omit [LawfulEqOrd K] [DecidableEq K] in
theorem new (key : Key K) : Alone key (new : Reassembler K) :=
  ⟨fun _ _ => ExtTreeMap.getElem?_empty, fun _ _ h => by
    rw [show (Reassembler.new : Reassembler K).byAge = ∅ from rfl, ExtTreeMap.getElem?_empty] at h
    cases h⟩

variable {key : Key K} {s : Reassembler K} (h : Alone key s)
include h

theorem inFlight_eq_zero (hview : s.view key = none) : s.inFlight = 0 := by
  have hempty : s.partials = ∅ := ExtTreeMap.ext_getElem? fun k => by
    rw [ExtTreeMap.getElem?_empty]
    by_cases hk : k = key
    · rw [hk]
      simpa [view] using hview
    · exact h.partials k hk
  rw [inFlight, hempty, ExtTreeMap.size_empty]

omit [LawfulEqOrd K] [DecidableEq K] in
theorem touch : Alone key (s.touch key) where
  partials := h.partials
  byAge age k hk := by
    simp only [Reassembler.touch, ExtTreeMap.getElem?_insert] at hk
    split_ifs at hk
    · exact (Option.some.inj hk).symm
    · split at hk
      · rw [ExtTreeMap.getElem?_erase] at hk
        split_ifs at hk
        exact h.byAge age k hk
      · exact h.byAge age k hk

omit [DecidableEq K] in
theorem remove : Alone key (s.remove key).2 where
  partials k hk := by rw [remove_partials_of_ne s hk]; exact h.partials k hk
  byAge age k hk := by
    unfold Reassembler.remove at hk
    split at hk
    · exact h.byAge age k hk
    · simp only [ExtTreeMap.getElem?_erase] at hk
      split_ifs at hk
      exact h.byAge age k hk

omit [LawfulEqOrd K] in
/-- There is no other message to evict. -/
theorem makeSpace_eq (incoming : ℕ) : s.makeSpace key incoming = s := by
  have holdest : s.oldest key = none := by
    refine List.find?_eq_none.2 fun k hk => ?_
    obtain ⟨⟨age, k⟩, hmem, rfl⟩ := List.mem_map.1 hk
    have := h.byAge age k (ExtTreeMap.mem_toList_iff_getElem?_eq_some.1 hmem)
    simpa using this
  rw [makeSpace, makeSpaceLoop, holdest]
  split_ifs <;> rfl

theorem gather (fragment : Fragment) : Alone key (s.gather key fragment).2.2 where
  partials k hk := by
    have hne : ¬ keyCmp key k = .eq := fun heq => hk (Std.LawfulEqCmp.eq_of_compare heq).symm
    rw [Reassembler.gather, h.touch.makeSpace_eq]
    exact (ExtTreeMap.getElem?_insert.trans (if_neg hne)).trans (h.touch.partials k hk)
  byAge age k hk := by
    rw [Reassembler.gather, h.touch.makeSpace_eq] at hk
    exact h.touch.byAge age k hk

/-- **A reassembler that hears one message only evicts nothing.** -/
theorem feedStep (sort : UnstableSort) {fed : Fed K} (hkey : fed.key = key) :
    Alone key (feedStep sort s fed).2 ∧ (Reassembler.feedStep sort s fed).2.evicted = s.evicted := by
  subst hkey
  have hgathered : (s.gather fed.key fed.2).2.2.evicted = s.evicted := by
    rw [Reassembler.gather, h.touch.makeSpace_eq]
    rfl
  rcases s.feed_state sort fed.1 fed.2 with ⟨-, hs⟩ | ⟨-, -, hs⟩ | ⟨-, -, hs | hs⟩
  all_goals
    rw [show (Reassembler.feedStep sort s fed).2 = _ from hs]
  · exact ⟨h, rfl⟩
  · exact ⟨h.remove, remove_evicted s _⟩
  · exact ⟨h.gather fed.2, hgathered⟩
  · exact ⟨(h.gather fed.2).remove, (remove_evicted _ _).trans hgathered⟩

end Alone

end LcmBus.Udpm.Reassembler
