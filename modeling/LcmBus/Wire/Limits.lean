import LcmBus.Wire.Evictions

/-!
# Evictions and the limits they keep to

A message is to be dropped only where it and the fragment that comes are more than may be held.  The loop
of `make_space` runs before it is known what the fragment adds, and it is the table that is full for it,
not the table with the fragment in it.

* `Exceeds`: a table and a fragment in it that are above a limit;
* `DropsToKeep`: what a feed evicts is of no use within the limits;
* `HasRoom`: a fragment of a message that is not held yet, or room for it as `make_space` sees it, or
  bytes enough for the evictions;
* `dropsToKeep_iff`: a feed drops messages to keep to the limits exactly there;
* `fill` and `begun_fill`: a table of so many messages, which at a thousand of them is where it does not.
-/

open Std (ExtTreeMap TransOrd LawfulEqCmp LawfulEqOrd)

namespace LcmBus.Udpm

namespace Partial

/-- The entry of a message that has one fragment. -/
def begun (fragment : Fragment) (now : ℕ) : Partial :=
  { opened fragment now with
    channel := fragment.channel
    arrived := fragment.payload
    pieces := (∅ : ExtTreeMap UInt16 Piece).insert fragment.index
      { start := fragment.offset, at_ := 0, len := UInt32.ofNat fragment.payload.length } }

/-- An entry that is opened for a fragment has room for it. -/
theorem take_opened {fragment : Fragment} (h : fragment.refused = none) (now : ℕ) :
    (opened fragment now).take fragment = (.stored, begun fragment now) := by
  have hbounds := Fragment.bounds_of_accepted h
  simp only [take]
  split_ifs with hindex hmuch
  · simp [opened] at hindex
  · simp only [opened, List.length_nil] at hmuch
    omega
  · rfl

end Partial

namespace Reassembler

variable {K : Type} [Ord K] [TransOrd K] [DecidableEq K]

/-- The message of the fragment has its index already. -/
def Repeats (s : Reassembler K) (fed : Fed K) : Prop :=
  ∃ p ∈ s.partials[fed.key]?, fed.2.index ∈ p.pieces

instance (s : Reassembler K) (fed : Fed K) : Decidable (s.Repeats fed) :=
  inferInstanceAs (Decidable (∃ p ∈ s.partials[fed.key]?, fed.2.index ∈ p.pieces))

/-- With the fragment stored, more messages or more bytes are held than may be. -/
def Exceeds (s : Reassembler K) (fed : Fed K) : Prop :=
  s.inFlight + (if fed.key ∈ s.partials then 0 else 1) > maxFragmentBuffers ∨
    s.held + (if s.Repeats fed then 0 else fed.2.payload.length + pieceCost) > maxFragmentBytes

/-- Each message that a feed evicts would, kept, have exceeded the limits.  A fragment of a message that
is held and whose bytes fit evicts nothing, and neither does one that repeats where the limits are kept. -/
def DropsToKeep (s : Reassembler K) (fed : Fed K) : Prop :=
  (∀ before k after, s.evictedBy fed = before ++ k :: after → (before.foldl evict s).Exceeds fed) ∧
    (fed.key ∈ s.partials → s.held + fed.2.payload.length ≤ maxFragmentBytes →
      s.evictedBy fed = []) ∧
    (s.Repeats fed → s.inFlight ≤ maxFragmentBuffers → s.held ≤ maxFragmentBytes →
      s.evictedBy fed = [])

/-- The message of another key that was not touched for the longest time. -/
def Waits (s : Reassembler K) (key k : Key K) (p : Partial) : Prop :=
  k ≠ key ∧ s.partials[k]? = some p ∧
    ∀ j q, j ≠ key → s.partials[j]? = some q → p.touched ≤ q.touched

/-- What is enough of room: the fragment does not come to `make_space`, or begins a message; or no other
message is there, or the table is not full and the bytes fit; or the bytes do not fit, and where the
fragment repeats one they did not before it, and do behind one eviction. -/
def HasRoom (s : Reassembler K) (fed : Fed K) : Prop :=
  let incoming := fed.2.payload.length
  ¬ s.Gathers fed ∨ fed.key ∉ s.partials ∨ s.inFlight ≤ 1 ∨
    (s.inFlight < maxFragmentBuffers ∧ s.held + incoming ≤ maxFragmentBytes) ∨
    if s.Repeats fed then
      s.held > maxFragmentBytes ∧ (s.inFlight = 2 ∨
        ∃ k p, s.Waits fed.key k p ∧ s.held - p.cost + incoming ≤ maxFragmentBytes)
    else s.held + incoming > maxFragmentBytes

variable {s : Reassembler K}

/-! ### Entries have pieces -/

/-- Each entry has a piece. -/
def Stocked (s : Reassembler K) : Prop :=
  ∀ (k : Key K) p, s.partials[k]? = some p → 0 < p.pieces.size

omit [DecidableEq K] in
theorem Stocked.cost_ge (h : Stocked s) {k : Key K} {p : Partial} (hp : s.partials[k]? = some p) :
    pieceCost ≤ p.cost := by
  have := h k p hp
  rw [Partial.cost]
  nlinarith

variable [LawfulEqOrd K]

omit [DecidableEq K] [LawfulEqOrd K] in
theorem Stocked.of_view (h : Stocked s) {key : Key K} : ∀ p ∈ s.view key, 0 < p.pieces.size := by
  intro p hp
  obtain ⟨q, hq, rfl⟩ := Option.map_eq_some_iff.1 hp
  exact h key q hq

/-- An entry that takes a fragment has a piece, where it was not opened for one it has no room for. -/
theorem pieces_pos_of_take {entry : Option Partial} {fragment : Fragment}
    (hrefused : fragment.refused = none) (hentry : ∀ p ∈ entry, 0 < p.pieces.size) :
    0 < ((entry.getD (Partial.opened fragment 0)).take fragment).2.pieces.size := by
  cases entry with
  | none =>
    rw [Option.getD_none, Partial.take_opened hrefused]
    show 0 < (ExtTreeMap.insert _ _ _).size
    simp [ExtTreeMap.size_insert]
  | some p =>
    simp only [Option.getD_some, Partial.take]
    split_ifs with hindex hmuch
    · exact hentry p rfl
    · exact hentry p rfl
    · show 0 < (ExtTreeMap.insert _ _ _).size
      rw [ExtTreeMap.size_insert, if_neg (by simpa using hindex)]
      exact Nat.succ_pos _

/-- Every entry that a feed leaves has a piece. -/
theorem Stocked.feed (h : Stocked s) (sort : UnstableSort) (fed : Fed K) :
    Stocked (feedStep sort s fed).2 := by
  have hown : ∀ q ∈ (Assembly.step sort (s.view fed.key) fed.2).2, 0 < q.pieces.size := by
    rw [Assembly.step]
    cases hrefused : fed.2.refused with
    | some e => exact h.of_view
    | none =>
      have htaken : ∀ q ∈ some (((s.view fed.key).getD (Partial.opened fed.2 0)).take fed.2).2,
          0 < q.pieces.size := by
        rintro _ ⟨⟩
        exact pieces_pos_of_take hrefused h.of_view
      dsimp only
      split_ifs
      · rintro _ ⟨⟩
      · exact htaken
      · exact htaken
      · unfold Assembly.finish
        split <;> rintro _ ⟨⟩
  intro k p hp
  exact feed_views (fun _ => h.of_view) hown k p.ageless (by
    rw [show (s.feed sort fed.1 fed.2).2 = (feedStep sort s fed).2 from rfl, view, hp]
    rfl)

theorem stocked_of_feeds (sort : UnstableSort) (feds : List (Fed K)) :
    Stocked (Machine.final (feedStep sort) (new : Reassembler K) feds) :=
  Machine.final_invariant (fun _ fed h => h.feed sort fed) feds fun k p hp => by simp [new] at hp

/-! ### The tables that are evicted from -/

omit [DecidableEq K] [LawfulEqOrd K] in
/-- The age of the fed key has no part in what evictions leave of the table and its bytes. -/
theorem foldl_evict_touch {t : Reassembler K} (hpartials : t.partials = s.partials)
    (hheld : t.held = s.held) (keys : List (Key K)) :
    (keys.foldl evict t).partials = (keys.foldl evict s).partials ∧
      (keys.foldl evict t).held = (keys.foldl evict s).held := by
  induction keys generalizing s t with
  | nil => exact ⟨hpartials, hheld⟩
  | cons k keys ih =>
    have hevict : (t.evict k).partials = (s.evict k).partials ∧
        (t.evict k).held = (s.evict k).held := by
      simp only [evict, remove, hpartials]
      cases s.partials[k]? <;> simp [hpartials, hheld]
    exact ih hevict.1 hevict.2

omit [DecidableEq K] in
theorem foldl_evict_inFlight_le (keys : List (Key K)) :
    (keys.foldl evict s).inFlight ≤ s.inFlight := by
  induction keys generalizing s with
  | nil => exact le_rfl
  | cons k keys ih =>
    refine ih.trans ?_
    show (s.remove k).2.partials.size ≤ s.partials.size
    rw [remove_partials]
    exact ExtTreeMap.size_erase_le

omit [DecidableEq K] in
theorem evict_of_getElem? {k : Key K} {p : Partial} (hp : s.partials[k]? = some p) :
    (s.evict k).inFlight + 1 = s.inFlight ∧ (s.evict k).held = s.held - p.cost := by
  rw [evict, remove_of_getElem? hp]
  exact ⟨(OrderedMap.size_of_getElem? hp).symm, rfl⟩

omit [LawfulEqOrd K] in
/-- The table that a feed evicts from is above a limit of the loop. -/
theorem overLimits_of_evictedBy {fed : Fed K} {before after : List (Key K)} {k : Key K}
    (hkeys : s.evictedBy fed = before ++ k :: after) :
    (before.foldl evict s).overLimits fed.2.payload.length := by
  have hgathers : s.Gathers fed := by
    by_contra hno
    simp [evictedBy_of_not_gathers hno] at hkeys
  rw [evictedBy_of_gathers hgathers] at hkeys
  have hover := (makeSpaceKeys_turn hkeys).1
  obtain ⟨hpartials, hheld⟩ := foldl_evict_touch (touch_partials s fed.key) rfl before
  rwa [overLimits, hpartials, hheld] at hover

/-- What is evicted is not of the fed key, so that its entry stays. -/
theorem Books.evictedBy_keep (h : Books s) {fed : Fed K} {before after : List (Key K)}
    (hkeys : s.evictedBy fed = before ++ after) :
    (before.foldl Reassembler.evict s).partials[fed.key]? = s.partials[fed.key]? := by
  rw [foldl_evict_partials, if_neg]
  intro hmem
  obtain ⟨first, rest, rfl⟩ := List.append_of_mem hmem
  rw [List.append_assoc, List.cons_append] at hkeys
  exact (h.evictedBy_turn hkeys).1 rfl

/-- A feed evicts where it is crowded. -/
theorem Books.evictedBy_eq_nil_iff (h : Books s) {fed : Fed K} (hgathers : s.Gathers fed) :
    s.evictedBy fed = [] ↔ ¬ s.Crowded fed := by
  rw [← h.evicts_iff fed, (h.gather_state hgathers).2.1, not_not, ← List.length_eq_zero_iff]
  omega

/-- Behind the evictions there is room, or no other message. -/
theorem Books.evictedBy_end (h : Books s) {fed : Fed K} (hgathers : s.Gathers fed) :
    ¬ ((s.evictedBy fed).foldl Reassembler.evict s).overLimits fed.2.payload.length ∨
      ((s.evictedBy fed).foldl Reassembler.evict s).inFlight ≤ 1 := by
  obtain ⟨haged, hend⟩ := (h.touch fed.key).makeSpaceLoop fed.2.payload.length
    (Nat.lt_succ_self (s.touch fed.key).byAge.size)
  rw [makeSpaceLoop_eq_foldl, ← evictedBy_of_gathers hgathers] at haged hend
  obtain ⟨hpartials, hheld⟩ := foldl_evict_touch (touch_partials s fed.key) rfl (s.evictedBy fed)
  rw [overLimits, inFlight, ← hpartials, ← hheld]
  exact hend.imp_right fun hold => OrderedMap.size_le_one fed.key fun k p => haged.eq_of_oldest hold

/-- Where its message is there, a feed is crowded where the table is full or the bytes do not fit, and
there is another message. -/
theorem crowded_iff_of_mem {fed : Fed K} {own : Partial} (hown : s.partials[fed.key]? = some own) :
    s.Crowded fed ↔ (s.inFlight ≥ maxFragmentBuffers ∨
      s.held + fed.2.payload.length > maxFragmentBytes) ∧ 2 ≤ s.inFlight := by
  have hpos : s.partials.isEmpty = false := by
    rw [ExtTreeMap.isEmpty_eq_size_beq_zero, OrderedMap.size_of_getElem? hown]
    rfl
  have hother : (∃ k, k ≠ fed.key ∧ k ∈ s.partials) ↔ 2 ≤ s.inFlight := by
    constructor
    · rintro ⟨k, hk, hmem⟩
      obtain ⟨p, hp⟩ := OrderedMap.mem_iff_exists.1 hmem
      exact OrderedMap.two_le_size hp hown hk
    · intro htwo
      by_contra hno
      have hone : s.inFlight ≤ 1 := OrderedMap.size_le_one fed.key fun k p hp => by
        by_contra hk
        exact hno ⟨k, hk, OrderedMap.mem_of_getElem? hp⟩
      omega
  rw [Crowded, hother, overLimits, hpos]
  simp [inFlight]

/-- With a fragment of a message that is held, `Exceeds` counts no message more. -/
theorem Books.exceeds_of_evictedBy (h : Books s) {fed : Fed K} {before after : List (Key K)}
    (hkeys : s.evictedBy fed = before ++ after) :
    (before.foldl Reassembler.evict s).Exceeds fed ↔
      (before.foldl Reassembler.evict s).inFlight + (if fed.key ∈ s.partials then 0 else 1) >
          maxFragmentBuffers ∨
        (before.foldl Reassembler.evict s).held +
          (if s.Repeats fed then 0 else fed.2.payload.length + pieceCost) > maxFragmentBytes := by
  have hkeep := h.evictedBy_keep hkeys
  have hmem : fed.key ∈ (before.foldl Reassembler.evict s).partials ↔ fed.key ∈ s.partials :=
    OrderedMap.mem_congr hkeep
  have hrepeats : (before.foldl Reassembler.evict s).Repeats fed ↔ s.Repeats fed := by
    rw [Repeats, Repeats, hkeep]
  rw [Exceeds]
  simp only [hmem, hrepeats]

/-- A fragment of a message that is not held yet has to have a place in the table and in the bytes. -/
theorem Books.dropsToKeep_of_not_mem (h : Books s) {fed : Fed K} (hnew : fed.key ∉ s.partials) :
    s.DropsToKeep fed := by
  refine ⟨fun before k after hkeys => ?_, fun hmem => absurd hmem hnew, fun ⟨p, hp, _⟩ => ?_⟩
  · rw [h.exceeds_of_evictedBy hkeys, if_neg hnew]
    have hover := overLimits_of_evictedBy hkeys
    have hrepeats : ¬ s.Repeats fed := by
      rintro ⟨p, hp, -⟩
      rw [ExtTreeMap.getElem?_eq_none hnew] at hp
      cases hp
    rw [if_neg hrepeats]
    simp only [overLimits, inFlight] at hover ⊢
    omega
  · rw [ExtTreeMap.getElem?_eq_none hnew] at hp
    cases hp

/-- A new fragment of a message that is held. -/
theorem Books.dropsToKeep_of_fresh (h : Books s) {fed : Fed K} (hgathers : s.Gathers fed)
    {own : Partial} (hown : s.partials[fed.key]? = some own) (hfresh : ¬ s.Repeats fed) :
    s.DropsToKeep fed ↔
      ¬ s.Crowded fed ∨ s.held + fed.2.payload.length > maxFragmentBytes := by
  have hmem : fed.key ∈ s.partials := OrderedMap.mem_of_getElem? hown
  constructor
  · rintro ⟨-, hfits, -⟩
    by_contra! hno
    exact (h.evictedBy_eq_nil_iff hgathers).1 (hfits hmem hno.2) hno.1
  · intro hroom
    refine ⟨fun before k after hkeys => ?_, fun _ hfits => ?_, fun hbad => absurd hbad hfresh⟩
    · have hcrowded : s.Crowded fed := by
        by_contra hno
        simp [(h.evictedBy_eq_nil_iff hgathers).2 hno] at hkeys
      rw [h.exceeds_of_evictedBy hkeys, if_pos hmem, if_neg hfresh]
      right
      cases before with
      | nil =>
        have := hroom.resolve_left (not_not.2 hcrowded)
        dsimp only [List.foldl_nil]
        omega
      | cons j before =>
        -- One eviction is enough for the table.
        obtain ⟨-, -, p, hp, -⟩ := h.evictedBy_turn (show _ = [] ++ _ from hkeys)
        have hless := foldl_evict_inFlight_le (s := s.evict j) before
        have hone := (evict_of_getElem? hp).1
        have hfew := h.few
        have hover := overLimits_of_evictedBy hkeys
        simp only [overLimits, List.foldl_cons] at hover ⊢
        simp only [inFlight] at hless hone hfew
        omega
    · refine (h.evictedBy_eq_nil_iff hgathers).2 fun hcrowded => ?_
      have := hroom.resolve_left (not_not.2 hcrowded)
      omega

/-- The message that is evicted first is the one that waits, and no other does. -/
theorem Books.waits_iff (h : Books s) {fed : Fed K} {first : Key K} {rest : List (Key K)}
    (hkeys : s.evictedBy fed = first :: rest) {k : Key K} {p : Partial} :
    s.Waits fed.key k p ↔ k = first ∧ s.partials[k]? = some p := by
  obtain ⟨hfirst, -, q, hq, holdest⟩ := h.evictedBy_turn (show _ = [] ++ _ from hkeys)
  constructor
  · rintro ⟨hk, hp, hmin⟩
    refine ⟨?_, hp⟩
    by_contra hne
    have := holdest k p hk (by simp) hne hp
    have := hmin first q hfirst hq
    omega
  · rintro ⟨rfl, hp⟩
    refine ⟨hfirst, hp, fun j r hj hr => ?_⟩
    rw [hq] at hp
    cases hp
    by_cases hne : j = k
    · subst hne
      rw [hq] at hr
      cases hr
      exact le_rfl
    · exact (holdest j r hj (by simp) hne hr).le

/-- Where its message is there, a feed stops at one eviction where no other message is left or the bytes
fit without it. -/
theorem Books.one_eviction_iff (h : Books s) {fed : Fed K} (hgathers : s.Gathers fed)
    {own : Partial} (hown : s.partials[fed.key]? = some own) {first : Key K} {rest : List (Key K)}
    (hkeys : s.evictedBy fed = first :: rest) {p : Partial} (hp : s.partials[first]? = some p) :
    rest = [] ↔
      s.inFlight = 2 ∨ s.held - p.cost + fed.2.payload.length ≤ maxFragmentBytes := by
  obtain ⟨hfirst, -, -⟩ := h.evictedBy_turn (show _ = [] ++ _ from hkeys)
  obtain ⟨hsize, hheld⟩ := evict_of_getElem? hp
  have hfew := h.few
  have hstays : ∀ {k : Key K}, k ≠ first → (s.evict first).partials[k]? = s.partials[k]? :=
    fun hk => s.remove_partials_of_ne hk
  have hpos : 1 ≤ (s.evict first).inFlight := by
    have hown' := (hstays hfirst.symm).trans hown
    rw [inFlight, OrderedMap.size_of_getElem? hown']
    omega
  constructor
  · rintro rfl
    have hend := h.evictedBy_end hgathers
    have hsome : (s.evict first).partials.isEmpty = false := by
      rw [ExtTreeMap.isEmpty_eq_size_beq_zero]
      simp only [inFlight] at hpos
      simpa using by omega
    rw [hkeys, List.foldl_cons, List.foldl_nil, overLimits, hsome] at hend
    simp only [and_true, not_or] at hend
    omega
  · intro henough
    by_contra hrest
    obtain ⟨second, rest, rfl⟩ := List.exists_cons_of_ne_nil hrest
    -- The second one is another message, and there is no room for the bytes yet.
    have hsplit : s.evictedBy fed = [first] ++ second :: rest := hkeys
    obtain ⟨hsecond, hnot, q, hq, -⟩ := h.evictedBy_turn hsplit
    have hover := overLimits_of_evictedBy hsplit
    have hthree : 2 ≤ (s.evict first).inFlight :=
      OrderedMap.two_le_size ((hstays (by simpa using hnot)).trans hq)
        ((hstays hfirst.symm).trans hown) hsecond
    simp only [List.foldl_cons, List.foldl_nil, overLimits] at hover
    simp only [inFlight] at hsize hfew hthree henough
    omega

/-- A fragment that repeats one of a message that is held, and evicts another: it does so to keep to the
limits exactly where the bytes are above theirs and one eviction is enough. -/
theorem Books.dropsToKeep_of_repeats (h : Books s) (hstocked : Stocked s) {fed : Fed K}
    (hgathers : s.Gathers fed) {own : Partial} (hown : s.partials[fed.key]? = some own)
    (hrepeats : s.Repeats fed) (hcrowded : s.Crowded fed) :
    s.DropsToKeep fed ↔ s.held > maxFragmentBytes ∧ (s.inFlight = 2 ∨
      ∃ k p, s.Waits fed.key k p ∧
        s.held - p.cost + fed.2.payload.length ≤ maxFragmentBytes) := by
  have hmem : fed.key ∈ s.partials := OrderedMap.mem_of_getElem? hown
  have htwo := ((crowded_iff_of_mem hown).1 hcrowded).2
  have hfew := h.few
  have hbudget := h.budget.resolve_left (by omega)
  obtain ⟨first, rest, hkeys⟩ := List.exists_cons_of_ne_nil
    (mt (h.evictedBy_eq_nil_iff hgathers).1 (not_not.2 hcrowded))
  obtain ⟨-, -, p, hp, -⟩ := h.evictedBy_turn (show _ = [] ++ _ from hkeys)
  have hwaits : (∃ k p, s.Waits fed.key k p ∧
      s.held - p.cost + fed.2.payload.length ≤ maxFragmentBytes) ↔
        s.held - p.cost + fed.2.payload.length ≤ maxFragmentBytes := by
    simp only [h.waits_iff hkeys]
    constructor
    · rintro ⟨k, q, ⟨rfl, hq⟩, hfits⟩
      rw [hp] at hq
      cases hq
      exact hfits
    · exact fun hfits => ⟨first, p, ⟨rfl, hp⟩, hfits⟩
  have hexceeds : ∀ {before after : List (Key K)}, s.evictedBy fed = before ++ after →
      ((before.foldl Reassembler.evict s).Exceeds fed ↔
        (before.foldl Reassembler.evict s).held > maxFragmentBytes) := fun {before after} hsplit => by
    have hless := foldl_evict_inFlight_le (s := s) before
    rw [h.exceeds_of_evictedBy hsplit, if_pos hmem, if_pos hrepeats]
    omega
  rw [hwaits, ← h.one_eviction_iff hgathers hown hkeys hp]
  constructor
  · rintro ⟨hdrops, -, -⟩
    refine ⟨(hexceeds (show _ = [] ++ _ from hkeys)).1 (hdrops [] first rest hkeys), ?_⟩
    -- Behind one eviction the bytes are within their limit.
    by_contra hrest
    obtain ⟨second, rest, rfl⟩ := List.exists_cons_of_ne_nil hrest
    have habove := (hexceeds (show _ = [first] ++ _ from hkeys)).1 (hdrops [first] second rest hkeys)
    have hheld : (s.evict first).held = s.held - p.cost := (evict_of_getElem? hp).2
    have hcost := hstocked.cost_ge hp
    simp only [List.foldl_cons, List.foldl_nil] at habove
    omega
  · rintro ⟨habove, rfl⟩
    refine ⟨fun before k after hsplit => (hexceeds hsplit).2 ?_, fun _ hfits => by omega,
      fun _ _ hwithin => by omega⟩
    have hnil : before = [] := by
      rw [hkeys] at hsplit
      have hlength := congrArg List.length hsplit
      simp only [List.length_append, List.length_cons, List.length_nil] at hlength
      exact List.length_eq_zero_iff.1 (by omega)
    subst hnil
    exact habove

omit [LawfulEqOrd K] in
/-- A feed that evicts nothing keeps to the limits. -/
theorem dropsToKeep_of_nil {fed : Fed K} (h : s.evictedBy fed = []) : s.DropsToKeep fed :=
  ⟨fun before k after hkeys => by simp [h] at hkeys, fun _ _ => h, fun _ _ _ => h⟩

theorem Books.dropsToKeep_iff (h : Books s) (hstocked : Stocked s) (fed : Fed K) :
    s.DropsToKeep fed ↔ s.HasRoom fed := by
  by_cases hgathers : s.Gathers fed
  swap
  · exact iff_of_true (dropsToKeep_of_nil (evictedBy_of_not_gathers hgathers)) (.inl hgathers)
  by_cases hmem : fed.key ∈ s.partials
  swap
  · exact iff_of_true (h.dropsToKeep_of_not_mem hmem) (.inr (.inl hmem))
  obtain ⟨own, hown⟩ := OrderedMap.mem_iff_exists.1 hmem
  have hquiet := crowded_iff_of_mem hown
  by_cases hcrowded : s.Crowded fed
  · have hover := hquiet.1 hcrowded
    have hfew := h.few
    by_cases hrepeats : s.Repeats fed
    · rw [h.dropsToKeep_of_repeats hstocked hgathers hown hrepeats hcrowded, HasRoom]
      simp only [hgathers, hmem, hrepeats, not_true, if_true, false_or]
      constructor
      · exact fun hroom => .inr (.inr hroom)
      · rintro (hone | hroom | hroom)
        · omega
        · omega
        · exact hroom
    · rw [h.dropsToKeep_of_fresh hgathers hown hrepeats, HasRoom]
      simp only [hgathers, hmem, hrepeats, hcrowded, not_true, if_false, false_or]
      omega
  · refine iff_of_true (dropsToKeep_of_nil ((h.evictedBy_eq_nil_iff hgathers).2 hcrowded)) ?_
    rw [hquiet] at hcrowded
    refine .inr (.inr ?_)
    by_cases hone : s.inFlight ≤ 1
    · exact .inl hone
    · refine .inr (.inl ?_)
      omega

/-- **A feed drops messages only to keep to the limits exactly where there is room for its fragment as
`make_space` sees it**: in every state that a run of feeds comes to, and for every fragment. -/
theorem drops_to_keep (sort : UnstableSort) (feds : List (Fed K)) (fed : Fed K) :
    let s := Machine.final (feedStep sort) (new : Reassembler K) feds
    s.DropsToKeep fed ↔ s.HasRoom fed :=
  (books_of_feeds sort feds).dropsToKeep_iff (stocked_of_feeds sort feds) fed

/-- A second fragment, where one message is held. -/
theorem drops_to_keep_of_one :
    (Machine.final (feedStep .insertion) (new : Reassembler ℕ) [(0, .ofTwo 7 1 2)]).DropsToKeep
      (0, .ofTwo 7 0 1) :=
  (drops_to_keep .insertion [(0, .ofTwo 7 1 2)] (0, .ofTwo 7 0 1)).2
    (.inr (.inr (.inl (by decide +kernel))))

/-! ### A full table -/

omit [LawfulEqOrd K] in
/-- A fragment that begins a message, where there is room for it and more of them are to come. -/
theorem feedStep_of_room (sort : UnstableSort) {fed : Fed K} (hrefused : fed.2.refused = none)
    (hnew : fed.key ∉ s.partials) (hroom : ¬ s.overLimits fed.2.payload.length)
    (hmore : 1 < fed.2.count.toNat) :
    let t := (feedStep sort s fed).2
    (∃ now, t.partials = s.partials.insert fed.key (Partial.begun fed.2 now)) ∧
      t.held = s.held + (fed.2.payload.length + pieceCost) := by
  intro t
  have hnone := ExtTreeMap.getElem?_eq_none hnew
  have hspace : (s.touch fed.key).makeSpace fed.key fed.2.payload.length = s.touch fed.key := by
    rw [makeSpace, makeSpaceLoop]
    exact if_neg hroom
  have htaken := Partial.take_opened hrefused (s.clock + 1)
  have hgather : s.gather fed.key fed.2 = (.stored, Partial.begun fed.2 (s.clock + 1),
      { s.touch fed.key with
        partials := s.partials.insert fed.key (Partial.begun fed.2 (s.clock + 1))
        held := s.held + (fed.2.payload.length + pieceCost) }) := by
    have hopened : { Partial.opened fed.2 (s.clock + 1) with touched := s.clock + 1 } =
        Partial.opened fed.2 (s.clock + 1) := rfl
    simp only [gather, hspace, touch_partials, touch_clock, hnone, Option.getD_none, hopened, htaken,
      if_true]
    rfl
  have hagrees : ¬ ∃ p ∈ s.partials[fed.key]?, p.disagrees fed.2 := by simp [hnone]
  have hfew : (Partial.begun fed.2 (s.clock + 1)).pieces.size <
      (Partial.begun fed.2 (s.clock + 1)).count.toNat := by
    rw [show (Partial.begun fed.2 (s.clock + 1)).pieces.size = 1 by
      simp [Partial.begun, ExtTreeMap.size_insert]]
    exact hmore
  have ht : t = (s.gather fed.key fed.2).2.2 := by
    show (s.feed sort fed.1 fed.2).2 = _
    rw [Fed.key] at hgather hagrees ⊢
    rw [feed, hrefused]
    dsimp only
    rw [if_neg hagrees, hgather]
    dsimp only
    simp only [reduceCtorEq, if_false, if_pos hfew]
  rw [ht, hgather]
  exact ⟨⟨_, rfl⟩, rfl⟩

/-- One fragment each is held of messages from the first `n` sources, and no other. -/
structure Begun (n : ℕ) (s : Reassembler ℕ) : Prop where
  inFlight : s.inFlight = n
  held : s.held = n * (1 + pieceCost)
  there : ∀ source < n, ∃ now,
    s.partials[((source, 7) : Key ℕ)]? = some (Partial.begun (.ofTwo 7 1 2) now)
  fresh : ∀ source ≥ n, ((source, 7) : Key ℕ) ∉ s.partials

theorem Begun.feed {n : ℕ} {s : Reassembler ℕ} (h : Begun n s) (hn : n < maxFragmentBuffers) :
    Begun (n + 1) (feedStep .insertion s (n, .ofTwo 7 1 2)).2 := by
  have hroom : ¬ s.overLimits 1 := by
    have hcost : pieceCost = 32 := rfl
    have hbuffers : maxFragmentBuffers = 1000 := rfl
    have hbytes : maxFragmentBytes = 2 ^ 24 := rfl
    have hsize := h.inFlight
    have hheld := h.held
    rw [hcost] at hheld
    simp only [overLimits, Reassembler.inFlight] at hsize ⊢
    omega
  have hnew : Fed.key ((n, .ofTwo 7 1 2) : Fed ℕ) ∉ s.partials := h.fresh n le_rfl
  have hrefused : (Fragment.ofTwo 7 1 2).refused = none := by decide
  obtain ⟨⟨now, hpartials⟩, hheld⟩ := feedStep_of_room .insertion
    (show ((n, .ofTwo 7 1 2) : Fed ℕ).2.refused = none from hrefused) hnew hroom
    (show 1 < (Fragment.ofTwo 7 1 2).count.toNat by decide)
  have hentry : ∀ source : ℕ, (feedStep .insertion s (n, .ofTwo 7 1 2)).2.partials[
      ((source, 7) : Key ℕ)]? = if source = n then some (Partial.begun (.ofTwo 7 1 2) now)
        else s.partials[((source, 7) : Key ℕ)]? := fun source => by
    rw [hpartials]
    by_cases heq : source = n
    · rw [if_pos heq, heq]
      exact ExtTreeMap.getElem?_insert_self
    · rw [if_neg heq, ExtTreeMap.getElem?_insert, if_neg]
      exact fun hkey => heq (congrArg Prod.fst (LawfulEqCmp.eq_of_compare hkey)).symm
  refine ⟨?_, ?_, fun source hsource => ?_, fun source hsource => ?_⟩
  · rw [Reassembler.inFlight, hpartials, ExtTreeMap.size_insert, if_neg (by simpa using hnew)]
    exact congrArg (· + 1) h.inFlight
  · rw [hheld, h.held]
    show n * _ + (1 + pieceCost) = _
    ring
  · rw [hentry]
    split_ifs with heq
    · exact ⟨now, rfl⟩
    · exact h.there source (by omega)
  · rw [ExtTreeMap.mem_iff_isSome_getElem?, hentry, if_neg (by omega),
      ← ExtTreeMap.mem_iff_isSome_getElem?]
    exact h.fresh source (by omega)

/-- A fragment each of messages from `n` sources. -/
def fill (n : ℕ) : List (Fed ℕ) := (List.range n).map fun source => (source, .ofTwo 7 1 2)

theorem begun_fill {n : ℕ} (hn : n ≤ maxFragmentBuffers) :
    Begun n (Machine.final (feedStep .insertion) new (fill n)) := by
  induction n with
  | zero => exact ⟨by simp [fill, new, inFlight], by simp [fill, new], by simp, by simp [fill, new]⟩
  | succ n ih =>
    rw [show fill (n + 1) = fill n ++ [(n, .ofTwo 7 1 2)] by simp [fill, List.range_succ],
      Machine.final_concat]
    exact (ih (by omega)).feed (by omega)

/-- A table that is full drops a message for a fragment of one that it holds. -/
theorem drops_for_a_held_message :
    ¬ (Machine.final (feedStep .insertion) new (fill 1000)).DropsToKeep (0, .ofTwo 7 0 1) := by
  have h := begun_fill (n := 1000) (by decide)
  have hbooks := books_of_feeds (K := ℕ) .insertion (fill 1000)
  have hstocked := stocked_of_feeds (K := ℕ) .insertion (fill 1000)
  obtain ⟨now, hentry⟩ := h.there 0 (by decide)
  generalize Machine.final (feedStep .insertion) new (fill 1000) = s at h hbooks hstocked hentry ⊢
  have hown : s.partials[Fed.key ((0, .ofTwo 7 0 1) : Fed ℕ)]? =
      some (Partial.begun (.ofTwo 7 1 2) now) := hentry
  have hmem : Fed.key ((0, .ofTwo 7 0 1) : Fed ℕ) ∈ s.partials := OrderedMap.mem_of_getElem? hown
  have hagrees : ¬ (Partial.begun (.ofTwo 7 1 2) now).disagrees (.ofTwo 7 0 1) := by
    rintro (hbad | hbad) <;> exact hbad rfl
  have hgathers : s.Gathers (0, .ofTwo 7 0 1) := by
    refine ⟨by decide, ?_⟩
    rintro ⟨p, hp, hdis⟩
    rw [hown] at hp
    cases hp
    exact hagrees hdis
  have hrepeats : ¬ s.Repeats (0, .ofTwo 7 0 1) := by
    rintro ⟨p, hp, hindex⟩
    rw [hown] at hp
    cases hp
    simp [Partial.begun, Fragment.ofTwo] at hindex
  have hsize := h.inFlight
  have hheld := h.held
  rw [hbooks.dropsToKeep_iff hstocked, HasRoom]
  simp only [hgathers, hmem, hrepeats, not_true, if_false, false_or, hsize, hheld]
  decide

end Reassembler

end LcmBus.Udpm
