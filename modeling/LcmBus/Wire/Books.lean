import LcmBus.Lib.OrderedMap
import LcmBus.Wire.Assembly

/-!
# The books of a reassembler

What a `Reassembler` says of itself is so in every state: which message waited longest, how many
bytes it holds, and that it holds no more of them than it may.

* `Partial.Sound`: the places and the lengths of the pieces of one message;
* `Aged`: what of the table and its age index is as it should be while one key is fed;
* `Books`: all of it, between two feeds; `Books.remove`, `Books.gather` and `Books.feed`;
* `books_of_run`: so in every state, and in none does `feed` come to its `expect` or its slice out of
  range.
-/

open Std (ExtTreeMap TransOrd LawfulEqOrd)

namespace LcmBus.Udpm

namespace Partial

/-- What an entry costs of the budget. -/
def cost (p : Partial) : ℕ := p.arrived.length + p.pieces.size * pieceCost

/-- The pieces of an entry are of the bytes that arrived, and no byte is in two counts. -/
structure Sound (p : Partial) : Prop where
  total_le : p.total.toNat ≤ maxMessageLen
  arrived_eq : p.arrived.length = OrderedMap.total (fun piece : Piece => piece.len.toNat) p.pieces
  arrived_le : p.arrived.length ≤ p.total.toNat
  within : ∀ (index : UInt16) piece, p.pieces[index]? = some piece →
    piece.at_.toNat + piece.len.toNat ≤ p.arrived.length

theorem Sound.opened {fragment : Fragment} (h : fragment.refused = none) (now : ℕ) :
    (opened fragment now).Sound where
  total_le := by
    simp only [Fragment.refused] at h
    split_ifs at h with htotal
    exact not_lt.1 htotal
  arrived_eq := by
    rw [show (Partial.opened fragment now).pieces = ∅ from rfl, OrderedMap.total_empty]
    rfl
  arrived_le := Nat.zero_le _
  within index piece hpiece := by simp [Partial.opened] at hpiece

theorem Sound.touched {p : Partial} (h : p.Sound) (now : ℕ) : { p with touched := now }.Sound :=
  ⟨h.total_le, h.arrived_eq, h.arrived_le, h.within⟩

/-- An entry that takes a fragment is sound, and costs more only by what is stored of it. -/
theorem Sound.take {p : Partial} (h : p.Sound) (fragment : Fragment) :
    (p.take fragment).2.Sound ∧ (p.take fragment).2.touched = p.touched ∧
      (p.take fragment).2.cost = p.cost +
        if (p.take fragment).1 = .stored then fragment.payload.length + pieceCost else 0 := by
  by_cases hindex : fragment.index ∈ p.pieces
  · simp only [Partial.take, if_pos hindex]
    exact ⟨⟨h.total_le, h.arrived_eq, h.arrived_le, h.within⟩, trivial, rfl⟩
  by_cases hmuch : p.arrived.length + fragment.payload.length > p.total.toNat
  · simp only [Partial.take, if_neg hindex, if_pos hmuch]
    exact ⟨⟨h.total_le, h.arrived_eq, h.arrived_le, h.within⟩, trivial, rfl⟩
  · simp only [Partial.take, if_neg hindex, if_neg hmuch, if_true]
    have hsmall : maxMessageLen < UInt32.size := by decide
    have htotal := h.total_le
    have hat : (UInt32.ofNat p.arrived.length).toNat = p.arrived.length :=
      UInt32.toNat_ofNat_of_lt' (by omega)
    have hlen : (UInt32.ofNat fragment.payload.length).toNat = fragment.payload.length :=
      UInt32.toNat_ofNat_of_lt' (by omega)
    refine ⟨⟨h.total_le, ?_, ?_, ?_⟩, trivial, ?_⟩
    · rw [OrderedMap.total_insert_of_not_mem _ _ hindex, ← h.arrived_eq, List.length_append]
      simp only [hlen]
      omega
    · rw [List.length_append]
      exact not_lt.1 hmuch
    · intro index piece hpiece
      rw [List.length_append]
      rw [ExtTreeMap.getElem?_insert] at hpiece
      split_ifs at hpiece
      · cases hpiece
        simp only [hat, hlen]
        exact le_rfl
      · exact (h.within index piece hpiece).trans (Nat.le_add_right _ _)
    · rw [cost, cost, ExtTreeMap.size_insert, if_neg (by simpa using hindex), List.length_append]
      ring

end Partial

namespace Reassembler

variable {K : Type} [Ord K] [TransOrd K]

/-- The table and the index of its ages, where `key` is fed: the age of that key is the clock, that of
each other is in its entry and behind the clock. -/
structure Aged (key : Key K) (s : Reassembler K) : Prop where
  byAge : ∀ (age : ℕ) (k : Key K), s.byAge[age]? = some k ↔ (k = key ∧ age = s.clock) ∨
    (k ≠ key ∧ ∃ p, s.partials[k]? = some p ∧ p.touched = age)
  before : ∀ (k : Key K) p, s.partials[k]? = some p → k ≠ key → p.touched < s.clock
  held_eq : s.held = OrderedMap.total Partial.cost s.partials
  sound : ∀ (k : Key K) p, s.partials[k]? = some p → p.Sound

/-- What holds between two feeds. -/
structure Books (s : Reassembler K) : Prop where
  byAge : ∀ (age : ℕ) (k : Key K),
    s.byAge[age]? = some k ↔ ∃ p, s.partials[k]? = some p ∧ p.touched = age
  before : ∀ (k : Key K) p, s.partials[k]? = some p → p.touched ≤ s.clock
  held_eq : s.held = OrderedMap.total Partial.cost s.partials
  sound : ∀ (k : Key K) p, s.partials[k]? = some p → p.Sound
  few : s.inFlight ≤ maxFragmentBuffers
  budget : s.inFlight ≤ 1 ∨ s.held ≤ maxFragmentBytes + pieceCost

theorem books_new : Books (new : Reassembler K) where
  byAge age k := by simp [new]
  before k p h := by simp [new] at h
  held_eq := by rw [show (new : Reassembler K).partials = ∅ from rfl, OrderedMap.total_empty]; rfl
  sound k p h := by simp [new] at h
  few := by simp [inFlight, new]
  budget := .inl (by simp [inFlight, new])

/-- A message that goes takes its age and its cost with it. -/
theorem remove_of_getElem? {s : Reassembler K} {key : Key K} {p : Partial}
    (h : s.partials[key]? = some p) : (s.remove key).2 = { s with
      partials := s.partials.erase key, byAge := s.byAge.erase p.touched, held := s.held - p.cost } := by
  simp [remove, h, Partial.cost]

theorem age_unique {s : Reassembler K} {key : Key K} {p : Partial}
    (hp : s.partials[key]? = some p) (age : ℕ)
    (hage : ∃ q, s.partials[key]? = some q ∧ q.touched = age) : age = p.touched := by
  obtain ⟨q, hq, rfl⟩ := hage
  rw [hp] at hq
  cases hq
  rfl

/-- A key that is fed is the youngest. -/
theorem Books.touch {s : Reassembler K} (h : Books s) (key : Key K) : Aged key (s.touch key) where
  byAge age k := by
    have hindex : (s.touch key).byAge =
        (s.partials[key]?.elim s.byAge (s.byAge.erase ·.touched)).insert (s.clock + 1) key := by
      unfold Reassembler.touch
      cases s.partials[key]? <;> rfl
    have hothers : (s.partials[key]?.elim s.byAge (s.byAge.erase ·.touched))[age]? = some k ↔
        k ≠ key ∧ ∃ p, s.partials[k]? = some p ∧ p.touched = age := by
      cases hp : s.partials[key]? with
      | some p => exact OrderedMap.getElem?_erase_of_unique h.byAge ⟨p, hp, rfl⟩ (age_unique hp) _ _
      | none =>
        refine (h.byAge age k).trans ⟨fun hk => ⟨?_, hk⟩, And.right⟩
        rintro rfl
        obtain ⟨p, hk, -⟩ := hk
        rw [hp] at hk
        cases hk
    rw [hindex, ExtTreeMap.getElem?_insert]
    split_ifs with hage
    · have hage' := Std.LawfulEqCmp.eq_of_compare hage
      subst hage'
      refine ⟨fun hk => .inl ⟨(Option.some.inj hk).symm, rfl⟩, ?_⟩
      rintro (⟨rfl, -⟩ | ⟨-, p, hp, htouched⟩)
      · rfl
      · have := h.before k p hp
        omega
    · refine hothers.trans ⟨.inr, ?_⟩
      rintro (⟨-, rfl⟩ | hk)
      · exact absurd Std.ReflCmp.compare_self hage
      · exact hk
  before k p hp _ := Nat.lt_succ_of_le (h.before k p hp)
  held_eq := h.held_eq
  sound := h.sound

variable [LawfulEqOrd K]

theorem getElem?_erase_eq_some {s : Reassembler K} {key k : Key K} {p : Partial} :
    (s.partials.erase key)[k]? = some p ↔ k ≠ key ∧ s.partials[k]? = some p := by
  rw [ExtTreeMap.getElem?_erase]
  by_cases hk : k = key
  · subst hk
    simp
  · simp [hk, Ne.symm hk]

/-- A message that goes leaves the books of the others. -/
theorem Books.remove {s : Reassembler K} (h : Books s) (key : Key K) : Books (s.remove key).2 := by
  cases hp : s.partials[key]? with
  | none =>
    rw [Reassembler.remove, hp]
    exact h
  | some p =>
    have hheld := h.held_eq
    rw [OrderedMap.total_of_getElem? _ hp] at hheld
    have hsize : (s.partials.erase key).size ≤ s.partials.size := ExtTreeMap.size_erase_le
    rw [remove_of_getElem? hp]
    refine ⟨fun age k => ?_, fun k q hq => h.before k q (getElem?_erase_eq_some.1 hq).2, ?_,
      fun k q hq => h.sound k q (getElem?_erase_eq_some.1 hq).2, hsize.trans h.few, ?_⟩
    · rw [OrderedMap.getElem?_erase_of_unique h.byAge ⟨p, hp, rfl⟩ (age_unique hp)]
      simp only [getElem?_erase_eq_some, and_assoc, exists_and_left]
    · simp only
      omega
    · refine h.budget.imp (hsize.trans ·) fun hle => ?_
      simp only
      omega

/-! ### A feed -/

/-- To evict another message leaves the age of the one that is fed. -/
theorem Aged.evict {s : Reassembler K} {key k : Key K} (h : Aged key s) (hk : k ≠ key) :
    Aged key (s.evict k) := by
  rw [Reassembler.evict]
  cases hp : s.partials[k]? with
  | none =>
    rw [Reassembler.remove, hp]
    exact ⟨h.byAge, h.before, h.held_eq, h.sound⟩
  | some p =>
    have hheld := h.held_eq
    rw [OrderedMap.total_of_getElem? _ hp] at hheld
    have hage : ∀ age, (k = key ∧ age = s.clock) ∨
        (k ≠ key ∧ ∃ q, s.partials[k]? = some q ∧ q.touched = age) → age = p.touched := by
      rintro age (⟨hkey, -⟩ | ⟨-, hq⟩)
      · exact absurd hkey hk
      · exact age_unique hp age hq
    rw [remove_of_getElem? hp]
    refine ⟨fun age j => ?_, fun j q hq => h.before j q (getElem?_erase_eq_some.1 hq).2, ?_,
      fun j q hq => h.sound j q (getElem?_erase_eq_some.1 hq).2⟩
    · rw [OrderedMap.getElem?_erase_of_unique h.byAge (.inr ⟨hk, p, hp, rfl⟩) hage]
      simp only [getElem?_erase_eq_some, and_assoc, exists_and_left]
      constructor
      · rintro ⟨hj, hkey | ⟨hne, hq⟩⟩
        · exact .inl hkey
        · exact .inr ⟨hne, hj, hq⟩
      · rintro (⟨rfl, hclock⟩ | ⟨hne, hj, hq⟩)
        · exact ⟨hk.symm, .inl ⟨rfl, hclock⟩⟩
        · exact ⟨hj, .inr ⟨hne, hq⟩⟩
    · simp only
      omega

variable [DecidableEq K]

omit [TransOrd K] [LawfulEqOrd K] in
theorem exists_age_of_oldest {s : Reassembler K} {keep k : Key K} (h : s.oldest keep = some k) :
    ∃ age : ℕ, s.byAge[age]? = some k := by
  obtain ⟨⟨age, _⟩, hmem, rfl⟩ := List.mem_map.1 (List.mem_of_find?_eq_some h)
  exact ⟨age, ExtTreeMap.mem_toList_iff_getElem?_eq_some.1 hmem⟩

/-- The loop of `make_space` ends within its limits, or with no other message to drop. -/
theorem Aged.makeSpaceLoop {keep : Key K} {s : Reassembler K} (h : Aged keep s) (incoming : ℕ)
    {fuel : ℕ} (hfuel : s.byAge.size < fuel) :
    let t := Reassembler.makeSpaceLoop keep incoming fuel s
    Aged keep t ∧ (¬ t.overLimits incoming ∨ t.oldest keep = none) := by
  induction fuel generalizing s with
  | zero => omega
  | succ fuel ih =>
    rw [Reassembler.makeSpaceLoop]
    by_cases hover : s.overLimits incoming
    · rw [if_pos hover]
      cases hold : s.oldest keep with
      | none => exact ⟨h, .inr hold⟩
      | some k =>
        have hk := ne_of_oldest hold
        obtain ⟨age, hage⟩ := exists_age_of_oldest hold
        rcases (h.byAge age k).1 hage with ⟨hkey, -⟩ | ⟨-, p, hp, rfl⟩
        · exact absurd hkey hk
        have hsize : s.byAge.size = (s.evict k).byAge.size + 1 := by
          rw [Reassembler.evict, remove_of_getElem? hp]
          exact OrderedMap.size_of_getElem? hage
        exact ih (h.evict hk) (by omega)
    · rw [if_neg hover]
      exact ⟨h, .inl hover⟩

omit [LawfulEqOrd K] in
/-- Where no other message is to be dropped, none is held. -/
theorem Aged.eq_of_oldest {s : Reassembler K} {keep : Key K} (h : Aged keep s)
    (hold : s.oldest keep = none) {k : Key K} {p : Partial} (hp : s.partials[k]? = some p) :
    k = keep := by
  by_contra hk
  have hage := (h.byAge p.touched k).2 (.inr ⟨hk, p, hp, rfl⟩)
  have hmem : k ∈ s.byAge.toList.map Prod.snd :=
    List.mem_map.2 ⟨_, ExtTreeMap.mem_toList_iff_getElem?_eq_some.2 hage, rfl⟩
  have hnone := List.find?_eq_none.1 hold k hmem
  simp [hk] at hnone

/-- The entry of the key that is fed is written, and the books are in order again. -/
theorem Aged.insert {s : Reassembler K} {key : Key K} (h : Aged key s) {entry : Partial} {stored : ℕ}
    (hsound : entry.Sound) (htouched : entry.touched = s.clock)
    (hcost : entry.cost = ((s.partials[key]?).elim 0 Partial.cost) + stored) (incoming : ℕ)
    (hstored : stored ≤ incoming + pieceCost)
    (hlimits : ¬ s.overLimits incoming ∨ s.oldest key = none) :
    Books { s with partials := s.partials.insert key entry, held := s.held + stored } := by
  have hinsert : ∀ (k : Key K) p, (s.partials.insert key entry)[k]? = some p ↔
      (k = key ∧ p = entry) ∨ (k ≠ key ∧ s.partials[k]? = some p) := fun k p => by
    rw [ExtTreeMap.getElem?_insert]
    by_cases hk : k = key
    · subst hk
      rw [if_pos Std.ReflCmp.compare_self]
      simp [eq_comm]
    · simp [hk, Ne.symm hk]
  have honly : s.oldest key = none → (s.partials.insert key entry).size ≤ 1 := fun hold =>
    OrderedMap.size_le_one key fun k p hp => by
      rcases (hinsert k p).1 hp with ⟨rfl, -⟩ | ⟨-, hp⟩
      · rfl
      · exact h.eq_of_oldest hold hp
  have hsize : (s.partials.insert key entry).size ≤ s.partials.size + 1 := ExtTreeMap.size_insert_le
  refine ⟨fun age k => ?_, fun k p hp => ?_, ?_, fun k p hp => ?_, ?_, ?_⟩
  · rw [h.byAge]
    constructor
    · rintro (⟨rfl, rfl⟩ | ⟨hk, p, hp, rfl⟩)
      · exact ⟨entry, (hinsert _ _).2 (.inl ⟨rfl, rfl⟩), htouched⟩
      · exact ⟨p, (hinsert _ _).2 (.inr ⟨hk, hp⟩), rfl⟩
    · rintro ⟨p, hp, rfl⟩
      rcases (hinsert _ _).1 hp with ⟨rfl, rfl⟩ | ⟨hk, hp⟩
      · exact .inl ⟨rfl, htouched⟩
      · exact .inr ⟨hk, p, hp, rfl⟩
  · rcases (hinsert _ _).1 hp with ⟨rfl, rfl⟩ | ⟨hk, hp⟩
    · exact htouched.le
    · exact (h.before k p hp hk).le
  · dsimp only
    cases hp : s.partials[key]? with
    | none =>
      have hmem : key ∉ s.partials := by
        rw [ExtTreeMap.mem_iff_isSome_getElem?, hp]
        simp
      rw [OrderedMap.total_insert_of_not_mem _ _ hmem, ← h.held_eq, hcost, hp]
      simp only [Option.elim]
      omega
    | some p =>
      have htotal := OrderedMap.total_insert_of_getElem? Partial.cost entry hp
      rw [← h.held_eq, hcost, hp] at htotal
      simp only [Option.elim] at htotal
      omega
  · rcases (hinsert _ _).1 hp with ⟨rfl, rfl⟩ | ⟨hk, hp⟩
    · exact hsound
    · exact h.sound k p hp
  · rcases hlimits with hlimits | hold
    · simp only [overLimits, not_or] at hlimits
      simp only [inFlight]
      omega
    · exact (honly hold).trans (by decide)
  · rcases hlimits with hlimits | hold
    · simp only [overLimits, not_or, not_and, Bool.not_eq_false] at hlimits
      by_cases hheld : s.held + incoming > maxFragmentBytes
      · have hzero : s.partials.size = 0 := by
          rw [ExtTreeMap.isEmpty_iff.1 (hlimits.2 hheld), ExtTreeMap.size_empty]
        rw [hzero] at hsize
        exact .inl hsize
      · right
        dsimp only
        omega
    · exact .inl (honly hold)

/-- `feed`, up to its write into the entry, keeps the books, and the entry it writes is there. -/
theorem Books.gather {s : Reassembler K} (h : Books s) (key : Key K) {fragment : Fragment}
    (hrefused : fragment.refused = none) : Books (s.gather key fragment).2.2 := by
  obtain ⟨haged, hlimits⟩ := (h.touch key).makeSpaceLoop fragment.payload.length
    (Nat.lt_succ_self _)
  rw [← Reassembler.makeSpace] at haged hlimits
  rw [Reassembler.gather]
  generalize (s.touch key).makeSpace key fragment.payload.length = t at haged hlimits
  have hsound : ((t.partials[key]?).getD (Partial.opened fragment t.clock)).Sound := by
    cases hp : t.partials[key]? with
    | none => exact .opened hrefused _
    | some p => exact haged.sound key p hp
  have hcost : ((t.partials[key]?).getD (Partial.opened fragment t.clock)).cost =
      (t.partials[key]?).elim 0 Partial.cost := by
    cases t.partials[key]? with
    | none => simp [Partial.cost, Partial.opened]
    | some p => rfl
  obtain ⟨htaken, htouched, htakenCost⟩ := (hsound.touched t.clock).take fragment
  have hentry := haged.insert htaken htouched (htakenCost.trans (congrArg (· + _) hcost))
    fragment.payload.length (by split_ifs <;> omega) hlimits
  dsimp only
  split_ifs with hkept
  · rwa [if_pos hkept] at hentry
  · rwa [if_neg hkept, Nat.add_zero] at hentry

/-- **Every feed keeps the books.** -/
theorem Books.feed {s : Reassembler K} (h : Books s) (sort : UnstableSort) (fed : Fed K) :
    Books (feedStep sort s fed).2 := by
  rcases s.feed_state sort fed.1 fed.2 with ⟨-, hs⟩ | ⟨-, -, hs⟩ | ⟨hrefused, -, hs | hs⟩
  all_goals
    rw [show (feedStep sort s fed).2 = _ from hs]
  · exact h
  · exact h.remove _
  · exact h.gather _ hrefused
  · exact (h.gather _ hrefused).remove _

theorem books_of_feeds (sort : UnstableSort) (feds : List (Fed K)) :
    Books (Machine.final (feedStep sort) (new : Reassembler K) feds) :=
  Machine.final_invariant (fun _ fed h => h.feed sort fed) feds books_new

/-- **The books of a reassembler balance, and its budget holds**, behind every run of feeds.  The age
index and the table are inverse to each other, `held` is what the messages held cost, the bytes of each
are those of its pieces and within its length, and no more messages and no more bytes are held than may
be.  So a removal never takes more than is held, and where a feed that gathers its fragment takes the
entry out again, the entry is there and each piece of it is within its bytes. -/
theorem books_of_run (sort : UnstableSort) (feds : List (Fed K)) :
    let s := Machine.final (feedStep sort) (new : Reassembler K) feds
    (∀ (age : ℕ) (key : Key K),
      s.byAge[age]? = some key ↔ ∃ p, s.partials[key]? = some p ∧ p.touched = age) ∧
    s.held = (s.partials.toList.map fun entry =>
      entry.2.arrived.length + entry.2.pieces.size * pieceCost).sum ∧
    (∀ (key : Key K) p, s.partials[key]? = some p →
      p.arrived.length + p.pieces.size * pieceCost ≤ s.held ∧
      p.arrived.length = (p.pieces.toList.map fun piece => piece.2.len.toNat).sum ∧
      p.arrived.length ≤ p.total.toNat ∧
      ∀ (index : UInt16) piece, p.pieces[index]? = some piece →
        piece.at_.toNat + piece.len.toNat ≤ p.arrived.length) ∧
    s.inFlight ≤ maxFragmentBuffers ∧
    (s.inFlight ≤ 1 ∨ s.held ≤ maxFragmentBytes + pieceCost) ∧
    ∀ (key : Key K) fragment, fragment.refused = none →
      ∃ p, ((s.gather key fragment).2.2.remove key).1 = some p ∧ p = (s.gather key fragment).2.1 ∧
        ∀ (index : UInt16) piece, p.pieces[index]? = some piece →
          piece.at_.toNat + piece.len.toNat ≤ p.arrived.length := by
  intro s
  have h : Books s := books_of_feeds sort feds
  refine ⟨h.byAge, h.held_eq, fun key p hp => ⟨?_, (h.sound key p hp).arrived_eq,
    (h.sound key p hp).arrived_le, (h.sound key p hp).within⟩, h.few, h.budget,
    fun key fragment hrefused => ?_⟩
  · rw [h.held_eq, OrderedMap.total_of_getElem? _ hp]
    exact Nat.le_add_right _ _
  · obtain ⟨-, -, hentry⟩ := s.gather_spec key fragment
    exact ⟨_, (remove_of_some hentry).1, rfl,
      ((h.gather key hrefused).sound key _ hentry).within⟩

/-- Two messages in flight, and a fragment that comes twice and is stored once. -/
theorem books_of_run_of_two :
    let feds : List (Fed ℕ) := [(0, .ofTwo 7 1 2), (1, .ofTwo 7 0 3), (0, .ofTwo 7 1 9)]
    let s := Machine.final (feedStep .insertion) new feds
    s.inFlight = 2 ∧ s.held = 2 * (1 + pieceCost) ∧
      s.held = (s.partials.toList.map fun entry =>
        entry.2.arrived.length + entry.2.pieces.size * pieceCost).sum := by
  intro feds s
  exact ⟨by decide +kernel, by decide +kernel, (books_of_run .insertion feds).2.1⟩

end Reassembler

end LcmBus.Udpm
