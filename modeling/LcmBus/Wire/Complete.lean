import LcmBus.Wire.Delivery

/-!
# A message that is all there

The fragments of a message, one for each index, whose spans can be laid one behind the other, come to a
reassembler in any order.  The message comes with the last of them where the sort of its pieces leaves
them one behind the other, and a fragment with no payload begins where another one does.

* `Family`: the fragments of one message;
* `Family.answers_eq`: what is answered to them, up to what the scan of the pieces gives;
* `Delivers`: they are answered with the message;
* `Family.delivers_iff`: they are where no piece stands behind one that begins with it and is not empty;
* `delivers_of_all_there`: so they are, whatever the sort does, where what is empty is at the end.
-/

open Std (ExtTreeMap TransOrd LawfulEqOrd)

namespace LcmBus.Udpm

/-- The fragments of one message, in the order they come in: one for each index, with spans that can be
laid one behind the other, and a name in the one of index zero. -/
structure Family (sequence total : UInt32) (count : UInt16) (fragments : List Fragment) : Prop where
  total_le : total.toNat ≤ maxMessageLen
  count_pos : 1 ≤ count.toNat
  count_le : count.toNat ≤ max total.toNat 1
  shape : ∀ f ∈ fragments, f.sequence = sequence ∧ f.total = total ∧ f.count = count
  indexes : (fragments.map fun f => f.index.toNat).Perm (List.range count.toNat)
  laid : ∃ ordered : List Fragment, ordered.Perm fragments ∧ Fragment.Tile ordered total.toNat
  named : ∀ f ∈ fragments, f.index = 0 → f.channel.isSome

/-- Fragments with indexes of their own and no more bytes than their message are all kept. -/
theorem storedIn_eq_self {heard : List Fragment} (hnodup : (heard.map Fragment.index).Nodup)
    (hroom : ∀ f ∈ heard, (Fragment.gathered heard).length ≤ f.total.toNat) :
    storedIn heard = heard := by
  induction heard using List.reverseRecOn with
  | nil => rfl
  | append_singleton heard f ih =>
    have hlength : (Fragment.gathered (heard ++ [f])).length =
        (Fragment.gathered heard).length + f.payload.length := by
      simp [Fragment.gathered]
    rw [hlength] at hroom
    rw [List.map_append, List.nodup_append] at hnodup
    have hkept := ih hnodup.1 fun g hg => by
      have := hroom g (List.mem_append_left _ hg)
      omega
    have hindex : f.index ∉ heard.map Fragment.index := fun hmem =>
      hnodup.2.2 f.index hmem f.index (by simp) rfl
    have hfits := hroom f (by simp)
    rw [storedIn_concat, hkept, keep, if_neg hindex, if_neg (by omega)]

namespace Family

variable {sequence total : UInt32} {count : UInt16} {fragments : List Fragment}
  (h : Family sequence total count fragments)
include h

theorem length_eq : fragments.length = count.toNat := by
  simpa using h.indexes.length_eq

theorem nodup_index : (fragments.map Fragment.index).Nodup := by
  have hnodup := h.indexes.nodup_iff.2 List.nodup_range
  rw [show (fun f : Fragment => f.index.toNat) = UInt16.toNat ∘ Fragment.index from rfl,
    ← List.map_map] at hnodup
  exact hnodup.of_map _

theorem nodup : fragments.Nodup := h.nodup_index.of_map _

theorem bounds {f : Fragment} (hf : f ∈ fragments) :
    f.offset.toNat + f.payload.length ≤ total.toNat := by
  obtain ⟨ordered, hperm, htile⟩ := h.laid
  exact (htile.bounds f (hperm.mem_iff.2 hf)).2

theorem length_gathered : (Fragment.gathered fragments).length = total.toNat := by
  obtain ⟨ordered, hperm, htile⟩ := h.laid
  have hlength := htile.length_flatMap Fragment.payload fun _ _ => rfl
  rw [Nat.zero_add] at hlength
  rw [← hlength]
  exact (hperm.flatMap_right Fragment.payload).length_eq.symm

theorem refused_eq {f : Fragment} (hf : f ∈ fragments) : f.refused = none := by
  obtain ⟨-, htotal, hcount⟩ := h.shape f hf
  have hindex : f.index.toNat < count.toNat :=
    List.mem_range.1 (h.indexes.mem_iff.1 (List.mem_map.2 ⟨f, hf, rfl⟩))
  have hzero : count ≠ 0 := by
    rintro rfl
    exact absurd hindex (Nat.not_lt_zero _)
  have hge : ¬ f.index ≥ count := by
    rw [ge_iff_le, UInt16.le_iff_toNat_le]
    omega
  have hbounds := h.bounds hf
  have htotal_le := h.total_le
  have hcount_le := h.count_le
  rw [Fragment.refused, htotal, hcount]
  rw [if_neg (by omega), if_neg (by simp [hzero, hge]), if_neg (by omega), if_neg (by omega)]

/-! ### The run of the fragments -/

/-- What the entry of the message is behind the fragments heard so far. -/
structure Heard (total : UInt32) (count : UInt16) (entry : Option Partial) (heard : List Fragment) :
    Prop where
  holds : Assembly.Holds entry heard
  shape : ∀ p ∈ entry, p.total = total ∧ p.count = count

omit h in
theorem accepted_eq_self {heard : List Fragment} (hheard : ∀ f ∈ heard, f.refused = none) :
    accepted heard = heard :=
  List.filter_eq_self.2 fun f hf => by simp [hheard f hf]

/-- The fragments heard so far are all kept. -/
theorem storedIn_eq {heard rest : List Fragment} (hsplit : fragments = heard ++ rest) :
    storedIn heard = heard := by
  have hsub : heard.Sublist fragments := hsplit ▸ List.sublist_append_left _ _
  refine storedIn_eq_self (h.nodup_index.sublist (hsub.map _)) fun f hf => ?_
  rw [(h.shape f (hsub.subset hf)).2.1, ← h.length_gathered]
  exact (hsub.flatMap Fragment.payload).length_le

/-- **A fragment is answered with nothing while others are to come, and the last one with what its entry
comes to.** -/
theorem step_heard (sort : UnstableSort) {entry : Option Partial} {heard rest : List Fragment}
    {f : Fragment} (hsplit : fragments = heard ++ f :: rest) (hentry : Heard total count entry heard) :
    ∃ p : Partial, p.Holds (heard ++ [f]) ∧ p.total = total ∧ p.count = count ∧
      Assembly.step sort entry f =
        if rest = [] then Assembly.finish sort sequence p else (.ok none, some p) := by
  have hmem : f ∈ fragments := by simp [hsplit]
  have hrefused := h.refused_eq hmem
  obtain ⟨hsequence, htotal, hcount⟩ := h.shape f hmem
  have haccepted : accepted heard = heard :=
    accepted_eq_self fun g hg => h.refused_eq (by simp [hsplit, hg])
  have hstored : storedIn (heard ++ [f]) = heard ++ [f] :=
    h.storedIn_eq (show fragments = (heard ++ [f]) ++ rest by simp [hsplit])
  obtain ⟨e, hbad, -⟩ | ⟨-, ⟨p, hp, hdis⟩, -⟩ | ⟨-, -, kept, p, hp, hptotal, hpcount, hkept, hstep⟩ :=
    Assembly.step_cases hentry.holds sort f
  · rw [hrefused] at hbad
    cases hbad
  · obtain ⟨hptotal, hpcount⟩ := hentry.shape p hp
    exact absurd hdis (by simp [Partial.disagrees, hptotal, hpcount, htotal, hcount])
  rw [haccepted] at hp
  rw [haccepted, hstored, List.length_append, List.length_singleton, hcount, hsequence] at hstep
  have hroom : kept ≠ .tooMuch := by
    rintro rfl
    have hnot := Partial.not_mem_of_tooMuch (congrArg Prod.fst hkept)
    rw [hkept, hp.mem_pieces, hstored] at hnot
    simp at hnot
  have hlength := h.length_eq
  rw [hsplit, List.length_append, List.length_cons] at hlength
  refine ⟨p, hp, hptotal.trans htotal, hpcount.trans hcount, ?_⟩
  rw [hstep, if_neg hroom]
  cases rest with
  | nil => rw [if_neg (by simp only [List.length_nil] at hlength; omega), if_pos rfl]
  | cons g rest => rw [if_pos (by simp only [List.length_cons] at hlength; omega), if_neg (by simp)]

section Feeds

variable {K : Type} [Ord K] [TransOrd K] [LawfulEqOrd K] [DecidableEq K]

/-- The fragments that are still to come are answered with nothing, but for the last one. -/
theorem answers_from (sort : UnstableSort) (source : K) {heard rest : List Fragment}
    (hsplit : fragments = heard ++ rest) (hrest : rest ≠ []) {s : Reassembler K}
    (hs : Heard total count (s.view (source, sequence)) heard) :
    ∃ p : Partial, p.Holds fragments ∧ p.total = total ∧
      Machine.answers (Reassembler.feedStep sort) s (rest.map fun f => (source, f)) =
        List.replicate (rest.length - 1) (.ok none) ++ [(Assembly.finish sort sequence p).1] := by
  induction rest generalizing heard s with
  | nil => exact absurd rfl hrest
  | cons f rest ih =>
    obtain ⟨p, hp, htotal, hcount, hstep⟩ := h.step_heard sort hsplit hs
    have hsequence := (h.shape f (by simp [hsplit])).1
    have hview : ((Reassembler.feedStep sort s (source, f)).1,
        (Reassembler.feedStep sort s (source, f)).2.view (source, sequence)) =
          Assembly.step sort (s.view (source, sequence)) f := by
      rw [← hsequence]
      exact s.feed_view sort source f
    rw [hstep] at hview
    rw [List.map_cons, Machine.answers_cons]
    cases rest with
    | nil =>
      rw [if_pos rfl] at hview
      exact ⟨p, hsplit ▸ hp, htotal, congrArg (fun answered => [answered.1]) hview⟩
    | cons g rest =>
      rw [if_neg (List.cons_ne_nil g rest)] at hview
      have hnext : Heard total count
          ((Reassembler.feedStep sort s (source, f)).2.view (source, sequence)) (heard ++ [f]) := by
        rw [show (Reassembler.feedStep sort s (source, f)).2.view (source, sequence) = some p from
          congrArg Prod.snd hview]
        have haccepted : accepted (heard ++ [f]) = heard ++ [f] :=
          accepted_eq_self fun g hg => h.refused_eq (by
            rw [hsplit]
            simp only [List.mem_append, List.mem_cons] at hg ⊢
            tauto)
        refine ⟨?_, ?_⟩
        · show p.Holds (accepted (heard ++ [f]))
          rwa [haccepted]
        · rintro _ ⟨⟩
          exact ⟨htotal, hcount⟩
      obtain ⟨q, hq, hqtotal, hanswers⟩ := ih (by simp [hsplit]) (List.cons_ne_nil g rest) hnext
      refine ⟨q, hq, hqtotal, ?_⟩
      rw [show (Reassembler.feedStep sort s (source, f)).1 = .ok none from congrArg Prod.fst hview,
        hanswers]
      rfl

theorem answers_eq (sort : UnstableSort) (source : K) :
    ∃ p : Partial, p.Holds fragments ∧ p.total = total ∧
      Machine.answers (Reassembler.feedStep sort) (Reassembler.new : Reassembler K)
          (fragments.map fun f => (source, f)) =
        List.replicate (count.toNat - 1) (.ok none) ++ [(Assembly.finish sort sequence p).1] := by
  have hsome : fragments ≠ [] := by
    rintro rfl
    have := h.length_eq
    have := h.count_pos
    simp only [List.length_nil] at *
    omega
  rw [← h.length_eq]
  refine h.answers_from sort source (List.nil_append _).symm hsome ?_
  rw [Reassembler.view_new]
  exact ⟨rfl, nofun⟩

/-- The fragments of one source, fed to a reassembler that holds nothing, are answered with nothing but
for the last one, and that with the message: each payload is in it at its offset. -/
def Delivers (sort : UnstableSort) (source : K) (total : UInt32) (fragments : List Fragment) : Prop :=
  ∃ frame : Frame,
    Machine.answers (Reassembler.feedStep sort) (Reassembler.new : Reassembler K)
        (fragments.map fun f => (source, f)) =
      List.replicate (fragments.length - 1) (.ok none) ++ [.ok (some frame)] ∧
    frame.payload.length = total.toNat ∧
    (∀ f ∈ fragments, (frame.payload.drop f.offset.toNat).take f.payload.length = f.payload) ∧
    ∃ f ∈ fragments, f.channel = some frame.channel

/-- A fragment stands where it may in front of another: it begins before it, or is empty. -/
abbrev InTurn : Fragment → Fragment → Prop :=
  Tiling.InTurn (fun f => f.offset.toNat) (fun f => f.payload.length)

/-- The name of the message is there. -/
theorem exists_channel : ∃ channel, fragments.findSome? Fragment.channel = some channel := by
  obtain ⟨f, hf, hzero⟩ : ∃ f ∈ fragments, f.index.toNat = 0 :=
    List.mem_map.1 (h.indexes.mem_iff.2 (List.mem_range.2 h.count_pos))
  have hnamed := h.named f hf (UInt16.toNat_inj.1 hzero)
  rw [← Option.isSome_iff_exists, List.findSome?_isSome_iff]
  exact ⟨f, hf, hnamed⟩

omit [LawfulEqOrd K] in
/-- **The message is delivered exactly where the sort leaves each fragment in its turn.** -/
theorem delivers_iff {sort : UnstableSort} (source : K) {p : Partial} (hp : p.Holds fragments)
    (htotal : p.total = total)
    (hanswers : Machine.answers (Reassembler.feedStep sort) (Reassembler.new : Reassembler K)
        (fragments.map fun f => (source, f)) =
      List.replicate (count.toNat - 1) (.ok none) ++ [(Assembly.finish sort sequence p).1])
    {w : List (Fragment × ℕ)} (hw : w.Perm (placed 0 fragments))
    (hsort : sort.sort (p.pieces.toList.map Prod.snd) = w.map pieceAt) :
    Delivers sort source total fragments ↔ (w.map Prod.fst).Pairwise InTurn := by
  have hstored : storedIn fragments = fragments := h.storedIn_eq (List.append_nil _).symm
  have hperm : (w.map Prod.fst).Perm fragments := by
    have := hw.map Prod.fst
    rwa [map_fst_placed] at this
  obtain ⟨ordered, hordered, htile⟩ := h.laid
  rw [← htile.perm_iff (hperm.trans hordered.symm)]
  have hassemble := hp.assemble_iff (hstored.symm ▸ hw) hsort
  rw [htotal, hp.channel_eq] at hassemble
  constructor
  · rintro ⟨frame, hframe, -⟩
    rw [hanswers, h.length_eq] at hframe
    have hlast := List.singleton_inj.1 (List.append_cancel_left hframe)
    rw [Assembly.finish] at hlast
    split at hlast
    · cases hlast
    · rename_i given hgiven
      exact ((hassemble given).1 hgiven).1
  · intro hchain
    obtain ⟨channel, hchannel⟩ := h.exists_channel
    have hframe := (hassemble ⟨channel, Fragment.gathered (w.map Prod.fst)⟩).2 ⟨hchain, rfl, hchannel⟩
    refine ⟨⟨channel, Fragment.gathered (w.map Prod.fst)⟩, ?_, ?_, fun f hf => ?_, ?_⟩
    · rw [hanswers, h.length_eq, Assembly.finish, hframe]
    · have hlength := hchain.length_flatMap Fragment.payload fun _ _ => rfl
      rwa [Nat.zero_add] at hlength
    · exact hchain.slice_flatMap Fragment.payload (fun _ _ => rfl) f (hperm.mem_iff.2 hf)
    · exact List.exists_of_findSome?_eq_some hchannel

end Feeds

end Family

/-- An order of pieces by their starts, and of those that begin together by their lengths. -/
def Piece.longerFirst (p q : Piece) : Prop :=
  p.start.toNat < q.start.toNat ∨ p.start.toNat = q.start.toNat ∧ q.len.toNat ≤ p.len.toNat

instance : DecidableRel Piece.longerFirst := fun _ _ => inferInstanceAs (Decidable (_ ∨ _ ∧ _))

instance : Std.Total Piece.longerFirst := ⟨fun p q => by rw [Piece.longerFirst, Piece.longerFirst]; omega⟩

instance : IsTrans Piece Piece.longerFirst :=
  ⟨fun p q r => by rw [Piece.longerFirst, Piece.longerFirst, Piece.longerFirst]; omega⟩

/-- A sort that puts the longest one first of the pieces that begin together. -/
def UnstableSort.longestFirst : UnstableSort where
  sort := List.insertionSort Piece.longerFirst
  perm := List.perm_insertionSort _
  sorted pieces := (List.pairwise_insertionSort _ pieces).imp fun h => by
    rw [Piece.longerFirst] at h
    omega

namespace Family

variable {sequence total : UInt32} {count : UInt16} {fragments : List Fragment}
  (h : Family sequence total count fragments)
include h

/-- Two fragments that begin together are one, or one of them is empty. -/
theorem empty_of_offset_eq {f g : Fragment} (hf : f ∈ fragments) (hg : g ∈ fragments) (hne : f ≠ g)
    (hoffset : f.offset = g.offset) : f.payload = [] ∨ g.payload = [] := by
  obtain ⟨ordered, hperm, htile⟩ := h.laid
  by_contra! hboth
  have hfpos := List.length_pos_iff.2 hboth.1
  have hgpos := List.length_pos_iff.2 hboth.2
  refine hne (htile.cover_unique (p := f.offset.toNat) (hperm.mem_iff.2 hf) (hperm.mem_iff.2 hg) ?_ ?_)
  · omega
  · rw [hoffset]
    omega

/-- The payload of a fragment is no longer than its piece says. -/
theorem len_pieceAt {f : Fragment} (hf : f ∈ fragments) (at_ : ℕ) :
    (pieceAt (f, at_)).len.toNat = f.payload.length := by
  have hsmall : maxMessageLen < UInt32.size := by decide
  have htotal := h.total_le
  have hbounds := h.bounds hf
  refine UInt32.toNat_ofNat_of_lt' ?_
  show f.payload.length < UInt32.size
  omega

/-- Fragments that are sorted by their offsets are in turn where no empty one stands behind another that
begins with it and is not empty. -/
theorem inTurn_iff {ordered : List Fragment} (hperm : ordered.Perm fragments)
    (hsorted : ordered.Pairwise fun f g => f.offset.toNat ≤ g.offset.toNat) :
    ordered.Pairwise InTurn ↔
      ∀ f g, [f, g].Sublist ordered → f.payload ≠ [] → g.payload = [] → f.offset ≠ g.offset := by
  rw [List.pairwise_iff_forall_sublist]
  constructor
  · intro hturn f g hsub hf _ hoffset
    have hpos := List.length_pos_iff.2 hf
    have := hturn hsub
    simp only [InTurn, Tiling.InTurn, hoffset] at this
    omega
  · intro hties f g hsub
    have hle : f.offset.toNat ≤ g.offset.toNat := List.pairwise_iff_forall_sublist.1 hsorted hsub
    by_cases hempty : f.payload = []
    · exact hle.lt_or_eq.imp_right fun heq => ⟨heq, congrArg List.length hempty⟩
    · left
      refine lt_of_le_of_ne hle fun heq => ?_
      have hne : f ≠ g := by
        have hnodup := (hperm.nodup_iff.2 h.nodup).sublist hsub
        simpa using hnodup
      have hoffset := UInt32.toNat_inj.1 heq
      have hmem : ∀ x ∈ [f, g], x ∈ fragments := fun x hx => hperm.mem_iff.1 (hsub.subset hx)
      rcases h.empty_of_offset_eq (hmem f (by simp)) (hmem g (by simp)) hne hoffset with hbad | hgempty
      · exact hempty hbad
      · exact hties f g hsub hempty hgempty hoffset

/-- Where what is empty is at the end of the message, every sort leaves the fragments in turn. -/
theorem inTurn_of_empty_last (hlast : ∀ f ∈ fragments, f.payload = [] → f.offset = total)
    {ordered : List Fragment} (hperm : ordered.Perm fragments)
    (hsorted : ordered.Pairwise fun f g => f.offset.toNat ≤ g.offset.toNat) :
    ordered.Pairwise InTurn := by
  refine (h.inTurn_iff hperm hsorted).2 fun f g hsub hf hg hoffset => ?_
  have hbounds := h.bounds (hperm.mem_iff.1 (hsub.subset (show f ∈ [f, g] by simp)))
  rw [hoffset, hlast g (hperm.mem_iff.1 (hsub.subset (by simp))) hg] at hbounds
  have := List.length_pos_iff.2 hf
  omega

/-- An empty fragment before the end of the message begins with another one that is not empty. -/
theorem exists_of_empty {f : Fragment} (hf : f ∈ fragments) (hempty : f.payload = [])
    (hoffset : f.offset ≠ total) : ∃ g ∈ fragments, g.payload ≠ [] ∧ g.offset = f.offset := by
  obtain ⟨ordered, hperm, htile⟩ := h.laid
  have hbounds := h.bounds hf
  have hlt : f.offset.toNat < total.toNat :=
    lt_of_le_of_ne (by omega) fun heq => hoffset (UInt32.toNat_inj.1 heq)
  obtain ⟨g, hg, hle, hcover⟩ := htile.exists_cover (Nat.zero_le _) hlt
  have hgpos : g.payload ≠ [] := by
    rintro hnil
    rw [hnil] at hcover
    simp only [List.length_nil] at hcover
    omega
  refine ⟨g, hperm.mem_iff.1 hg, hgpos, UInt32.toNat_inj.1 ?_⟩
  by_contra hne
  have hfg : f ≠ g := fun heq => hgpos (heq ▸ hempty)
  have := htile.apart (hperm.mem_iff.2 hf) hg hfg
  rw [hempty] at this
  simp only [List.length_nil] at this
  omega

omit h in
/-- Of two entries of a list, one is behind the other. -/
theorem pair_sublist {α : Type*} {l : List α} {x y : α} (hx : x ∈ l) (hy : y ∈ l) (hne : x ≠ y) :
    [x, y].Sublist l ∨ [y, x].Sublist l := by
  obtain ⟨before, after, rfl⟩ := List.append_of_mem hx
  rcases List.mem_append.1 hy with hy | hy
  · exact .inr ((List.singleton_sublist.2 hy).append (List.singleton_sublist.2 (by simp)))
  · have hy' := (List.mem_cons.1 hy).resolve_left (Ne.symm hne)
    exact .inl (((List.singleton_sublist.2 hy').cons_cons x).trans (List.sublist_append_right _ _))

/-- Where an empty fragment is before the end, there is a sort that puts another in front of it. -/
theorem empty_last_of_longestFirst {w : List (Fragment × ℕ)} (hw : w.Perm (placed 0 fragments))
    {pieces : List Piece} (hsort : UnstableSort.longestFirst.sort pieces = w.map pieceAt)
    (hturn : (w.map Prod.fst).Pairwise InTurn) :
    ∀ f ∈ fragments, f.payload = [] → f.offset = total := by
  intro f hf hempty
  by_contra hoffset
  obtain ⟨g, hg, hgpos, hsame⟩ := h.exists_of_empty hf hempty hoffset
  have hmem : ∀ x ∈ fragments, ∃ at_, (x, at_) ∈ w := fun x hx => by
    rw [← map_fst_placed 0 fragments, ← (hw.map _).mem_iff] at hx
    obtain ⟨y, hy, rfl⟩ := List.mem_map.1 hx
    exact ⟨y.2, hy⟩
  obtain ⟨atf, hfw⟩ := hmem f hf
  obtain ⟨atg, hgw⟩ := hmem g hg
  have hlen := List.length_pos_iff.2 hgpos
  have hlongest : w.Pairwise fun x y => (pieceAt x).longerFirst (pieceAt y) := by
    rw [← List.pairwise_map (f := pieceAt), ← hsort]
    exact List.pairwise_insertionSort _ pieces
  rw [List.pairwise_map] at hturn
  have hne : (f, atf) ≠ (g, atg) := by
    rintro heq
    obtain rfl : f = g := congrArg Prod.fst heq
    exact hgpos hempty
  rcases pair_sublist hfw hgw hne with hsub | hsub
  · have hlonger := List.pairwise_iff_forall_sublist.1 hlongest hsub
    rw [Piece.longerFirst, h.len_pieceAt hf, h.len_pieceAt hg, hempty] at hlonger
    simp only [pieceAt, hsame, List.length_nil] at hlonger
    omega
  · have := List.pairwise_iff_forall_sublist.1 hturn hsub
    simp only [InTurn, Tiling.InTurn, hsame] at this
    omega

omit h in
/-- In a list with no entry twice, only one of two entries is behind the other. -/
theorem pair_sublist_asymm {α : Type*} {l : List α} (hnodup : l.Nodup) {x y : α}
    (hxy : [x, y].Sublist l) : ¬ [y, x].Sublist l := by
  intro hyx
  induction l with
  | nil => cases hxy
  | cons z l ih =>
    obtain ⟨hz, hnodup⟩ := List.nodup_cons.1 hnodup
    cases hxy with
    | cons _ hxy =>
      cases hyx with
      | cons _ hyx => exact ih hnodup hxy hyx
      | cons_cons _ _ => exact hz (hxy.subset (by simp))
    | cons_cons _ hy =>
      cases hyx with
      | cons _ hyx => exact hz (hyx.subset (by simp))
      | cons_cons _ _ => exact hz (hy.subset (by simp))

omit h in
/-- The pieces of an entry are in the order of their indexes. -/
theorem exists_by_index {p : Partial} {heard : List Fragment} (hp : p.Holds heard) :
    ∃ w : List (Fragment × ℕ), w.Perm (placed 0 (storedIn heard)) ∧
      p.pieces.toList.map Prod.snd = w.map pieceAt ∧
      w.Pairwise fun x y => x.1.index.toNat < y.1.index.toNat := by
  obtain ⟨w, hw, hlist⟩ := exists_perm_of_perm_map hp.pieces_perm
  refine ⟨w, hw, by rw [hlist, List.map_map]; rfl, ?_⟩
  have hordered := ExtTreeMap.ordered_keys_toList (t := p.pieces)
  rw [hlist, List.pairwise_map] at hordered
  exact hordered.imp fun hlt => UInt16.lt_iff_toNat_lt.1 (compareOfLessAndEq_eq_lt.1 hlt)

/-- Fragments by their offsets, where those that begin together stay as they are. -/
abbrev byOffset (w : List (Fragment × ℕ)) : List (Fragment × ℕ) :=
  w.insertionSort fun x y => x.1.offset.toNat ≤ y.1.offset.toNat

/-- A stable sort leaves an empty fragment in its turn where its index is the smaller one. -/
theorem inTurn_byOffset_iff {w : List (Fragment × ℕ)} (hw : w.Perm (placed 0 fragments))
    (hindex : w.Pairwise fun x y => x.1.index.toNat < y.1.index.toNat) :
    ((byOffset w).map Prod.fst).Pairwise InTurn ↔
      ∀ f ∈ fragments, ∀ g ∈ fragments, f.payload = [] → g.payload ≠ [] → f.offset = g.offset →
        f.index < g.index := by
  have hsort : (byOffset w).Perm w := List.perm_insertionSort _ w
  have hperm : (w.map Prod.fst).Perm fragments := by
    have := hw.map Prod.fst
    rwa [map_fst_placed] at this
  have hperm' : ((byOffset w).map Prod.fst).Perm fragments := (hsort.map Prod.fst).trans hperm
  have hsorted : ((byOffset w).map Prod.fst).Pairwise fun f g => f.offset.toNat ≤ g.offset.toNat := by
    have : Std.Total fun x y : Fragment × ℕ => x.1.offset.toNat ≤ y.1.offset.toNat :=
      ⟨fun _ _ => le_total _ _⟩
    have : IsTrans (Fragment × ℕ) fun x y => x.1.offset.toNat ≤ y.1.offset.toNat :=
      ⟨fun _ _ _ => le_trans⟩
    exact List.pairwise_map.2 (List.pairwise_insertionSort _ w)
  -- Of two that begin together, that of the smaller index stays in front.
  have hkeeps : ∀ f ∈ fragments, ∀ g ∈ fragments, f.offset = g.offset →
      f.index.toNat < g.index.toNat → [f, g].Sublist ((byOffset w).map Prod.fst) := by
    intro f hf g hg hoffset hlt
    obtain ⟨x, hx, rfl⟩ := List.mem_map.1 (hperm.mem_iff.2 hf)
    obtain ⟨y, hy, rfl⟩ := List.mem_map.1 (hperm.mem_iff.2 hg)
    obtain hsub | hsub := pair_sublist hx hy fun heq => by simp [heq] at hlt
    · exact (List.pair_sublist_insertionSort (by rw [hoffset]) hsub).map Prod.fst
    · have := List.pairwise_iff_forall_sublist.1 hindex hsub
      omega
  rw [h.inTurn_iff hperm' hsorted]
  constructor
  · intro hties f hf g hg hempty hpos hoffset
    by_contra hge
    rw [UInt16.lt_iff_toNat_lt] at hge
    have hne : f.index.toNat ≠ g.index.toNat := fun heq => by
      have heq' := List.inj_on_of_nodup_map h.nodup_index hf hg (UInt16.toNat_inj.1 heq)
      exact hpos (heq' ▸ hempty)
    exact hties g f (hkeeps g hg f hf hoffset.symm (by omega)) hpos hempty hoffset.symm
  · intro hlt f g hsub hpos hempty hoffset
    have hf := hperm'.mem_iff.1 (hsub.subset (show f ∈ [f, g] by simp))
    have hg := hperm'.mem_iff.1 (hsub.subset (show g ∈ [f, g] by simp))
    have hless := UInt16.lt_iff_toNat_lt.1 (hlt g hg f hf hempty hpos hoffset.symm)
    exact pair_sublist_asymm (hperm'.nodup_iff.2 h.nodup) hsub
      (hkeeps g hg f hf hoffset.symm hless)

variable {K : Type} [Ord K] [TransOrd K] [LawfulEqOrd K] [DecidableEq K]

theorem delivers_all_iff (source : K) :
    (∀ sort, Delivers sort source total fragments) ↔
      ∀ f ∈ fragments, f.payload = [] → f.offset = total := by
  have hstored : storedIn fragments = fragments := h.storedIn_eq (List.append_nil _).symm
  constructor
  · intro hall
    obtain ⟨p, hp, htotal, hanswers⟩ := h.answers_eq .longestFirst source
    obtain ⟨w, hw, hsort, -⟩ := hp.exists_sorted .longestFirst
    rw [hstored] at hw
    exact h.empty_last_of_longestFirst hw hsort
      ((h.delivers_iff source hp htotal hanswers hw hsort).1 (hall .longestFirst))
  · intro hlast sort
    obtain ⟨p, hp, htotal, hanswers⟩ := h.answers_eq sort source
    obtain ⟨w, hw, hsort, hsorted⟩ := hp.exists_sorted sort
    rw [hstored] at hw
    have hperm := hw.map Prod.fst
    rw [map_fst_placed] at hperm
    exact (h.delivers_iff source hp htotal hanswers hw hsort).2
      (h.inTurn_of_empty_last hlast hperm hsorted)

theorem delivers_insertion_iff (source : K) :
    Delivers .insertion source total fragments ↔
      ∀ f ∈ fragments, ∀ g ∈ fragments, f.payload = [] → g.payload ≠ [] → f.offset = g.offset →
        f.index < g.index := by
  have hstored : storedIn fragments = fragments := h.storedIn_eq (List.append_nil _).symm
  obtain ⟨p, hp, htotal, hanswers⟩ := h.answers_eq .insertion source
  obtain ⟨w, hw, hpieces, hindex⟩ := exists_by_index hp
  rw [hstored] at hw
  have hsort : UnstableSort.insertion.sort (p.pieces.toList.map Prod.snd) =
      (byOffset w).map pieceAt := by
    rw [hpieces]
    exact (List.map_insertionSort _ _ pieceAt w fun _ _ _ _ => Iff.rfl).symm
  rw [h.delivers_iff source hp htotal hanswers ((List.perm_insertionSort _ w).trans hw) hsort]
  exact h.inTurn_byOffset_iff hw hindex

end Family

variable {K : Type} [Ord K] [TransOrd K] [LawfulEqOrd K] [DecidableEq K]

/-- **A message that is all there is delivered, exactly where what is empty is at its end.**  All of its
fragments but the last are answered with nothing, in any order.  The last is answered with the message,
whatever an unstable sort does with pieces that begin together, where each fragment with no payload begins
at the end of the message; and with a stable sort, where each has a smaller index than one that begins
with it and is not empty. -/
theorem delivers_of_all_there {sequence total : UInt32} {count : UInt16} {fragments : List Fragment}
    (h : Family sequence total count fragments) (source : K) :
    ((∀ sort, Family.Delivers sort source total fragments) ↔
      ∀ f ∈ fragments, f.payload = [] → f.offset = total) ∧
    (Family.Delivers .insertion source total fragments ↔
      ∀ f ∈ fragments, ∀ g ∈ fragments, f.payload = [] → g.payload ≠ [] → f.offset = g.offset →
        f.index < g.index) ∧
    ∀ sort, ∃ last, Machine.answers (Reassembler.feedStep sort) (Reassembler.new : Reassembler K)
      (fragments.map fun f => (source, f)) = List.replicate (count.toNat - 1) (.ok none) ++ [last] := by
  refine ⟨h.delivers_all_iff source, h.delivers_insertion_iff source, fun sort => ?_⟩
  obtain ⟨p, -, -, hanswers⟩ := h.answers_eq sort source
  exact ⟨_, hanswers⟩

/-- Two fragments of one byte each, the second one first. -/
theorem family_ofTwo : Family 7 2 2 [.ofTwo 7 1 2, .ofTwo 7 0 1] where
  total_le := by decide
  count_pos := by decide
  count_le := by decide
  shape := by decide
  indexes := by decide
  laid := ⟨[.ofTwo 7 0 1, .ofTwo 7 1 2], by decide, by decide⟩
  named := by decide

theorem delivers_of_all_there_of_two :
    Family.Delivers .insertion (0 : ℕ) 2 [.ofTwo 7 1 2, .ofTwo 7 0 1] :=
  (delivers_of_all_there family_ofTwo (0 : ℕ)).1.2 (by decide) .insertion

/-- A fragment with all the bytes of a message, and behind it one with none, where it begins. -/
def beginTogether : List Fragment :=
  [{ Fragment.ofTwo 7 0 1 with payload := [1, 2] },
    { Fragment.ofTwo 7 1 2 with offset := 0, payload := [] }]

/-- They are all there, and no message is delivered. -/
theorem empty_behind_is_not_delivered :
    Family 7 2 2 beginTogether ∧ ¬ Family.Delivers .insertion (0 : ℕ) 2 beginTogether := by
  have h : Family 7 2 2 beginTogether := {
    total_le := by decide
    count_pos := by decide
    count_le := by decide
    shape := by decide
    indexes := by decide
    laid := ⟨beginTogether.reverse, by decide, by decide⟩
    named := by decide }
  refine ⟨h, fun hdelivers => ?_⟩
  have := (h.delivers_insertion_iff (0 : ℕ)).1 hdelivers
  revert this
  decide

end LcmBus.Udpm
