import LcmBus.Lib.OrderedMap
import LcmBus.Lib.Tiling
import LcmBus.Wire.Assembly

/-!
# What an entry of a reassembler holds

An entry keeps bytes in the sequence they came in and, for each index, where its bytes are.  Here
it is read back as the list of the fragments it was made from.

* `storedIn heard`: of the fragments heard, those whose payload is kept;
* `Partial.Holds p heard`: the entry `p` is what the fragments `heard` come to;
* `Holds.take`: one fragment more;
* `Holds.assemble`: what `assemble` gives, in terms of the fragments kept.
-/

open Std (ExtTreeMap)

namespace LcmBus.Udpm

namespace Fragment

/-- The payload bytes of all of `fragments`, one behind the other. -/
def gathered (fragments : List Fragment) : Bytes := fragments.flatMap payload

/-- The fragments tile `[0, total)` in this order. -/
def Tile (fragments : List Fragment) (total : ℕ) : Prop :=
  Tiling.Chain (fun f : Fragment => f.offset.toNat) (fun f => f.payload.length) 0 fragments total

instance (fragments : List Fragment) (total : ℕ) : Decidable (Tile fragments total) :=
  Tiling.Chain.decidable _ _ _ _ _

end Fragment

/-- The fragments kept, and whether one more is: it has an index of its own and room. -/
def keep (stored : List Fragment) (fragment : Fragment) : List Fragment :=
  if fragment.index ∈ stored.map Fragment.index then stored
  else if (Fragment.gathered stored).length + fragment.payload.length > fragment.total.toNat then
    stored
  else stored ++ [fragment]

/-- Of the fragments heard for a message, those whose payload is kept. -/
def storedIn (heard : List Fragment) : List Fragment := heard.foldl keep []

theorem storedIn_concat (heard : List Fragment) (fragment : Fragment) :
    storedIn (heard ++ [fragment]) = keep (storedIn heard) fragment := by
  simp [storedIn]

theorem keep_sublist (stored : List Fragment) (fragment : Fragment) :
    (keep stored fragment).Sublist (stored ++ [fragment]) := by
  unfold keep
  split_ifs
  · exact List.sublist_append_left _ _
  · exact List.sublist_append_left _ _
  · exact List.Sublist.refl _

theorem storedIn_sublist (heard : List Fragment) : (storedIn heard).Sublist heard := by
  induction heard using List.reverseRecOn with
  | nil => exact List.Sublist.refl _
  | append_singleton heard fragment ih =>
    rw [storedIn_concat]
    exact (keep_sublist _ _).trans (ih.append_right _)

theorem nodup_index_storedIn (heard : List Fragment) :
    ((storedIn heard).map Fragment.index).Nodup := by
  induction heard using List.reverseRecOn with
  | nil => exact List.nodup_nil
  | append_singleton heard fragment ih =>
    rw [storedIn_concat, keep]
    split_ifs with hindex
    · exact ih
    · exact ih
    · rw [List.map_append, List.map_singleton]
      exact ih.append (List.nodup_singleton _) (by simpa using hindex)

theorem nodup_storedIn (heard : List Fragment) : (storedIn heard).Nodup :=
  List.Nodup.of_map _ (nodup_index_storedIn heard)

/-! ### The place of each fragment -/

/-- Each fragment with the place of its bytes, where the first one's are at `at_`. -/
def placed : ℕ → List Fragment → List (Fragment × ℕ)
  | _, [] => []
  | at_, f :: fs => (f, at_) :: placed (at_ + f.payload.length) fs

/-- What `take` notes down of a fragment. -/
def pieceAt (x : Fragment × ℕ) : Piece where
  start := x.1.offset
  at_ := UInt32.ofNat x.2
  len := UInt32.ofNat x.1.payload.length

@[simp] theorem map_fst_placed (at_ : ℕ) (fs : List Fragment) :
    (placed at_ fs).map Prod.fst = fs := by
  induction fs generalizing at_ with
  | nil => rfl
  | cons f fs ih => simp [placed, ih]

theorem placed_concat (at_ : ℕ) (fs : List Fragment) (f : Fragment) :
    placed at_ (fs ++ [f]) = placed at_ fs ++ [(f, at_ + (Fragment.gathered fs).length)] := by
  induction fs generalizing at_ with
  | nil => rfl
  | cons g fs ih => simp [placed, ih, Fragment.gathered, Nat.add_assoc]

theorem chain_placed (at_ : ℕ) (fs : List Fragment) :
    Tiling.Chain Prod.snd (fun x : Fragment × ℕ => x.1.payload.length) at_ (placed at_ fs)
      (at_ + (Fragment.gathered fs).length) := by
  induction fs generalizing at_ with
  | nil => rfl
  | cons f fs ih =>
    have := ih (at_ + f.payload.length)
    rw [Nat.add_assoc] at this
    refine ⟨rfl, ?_⟩
    simpa [Fragment.gathered] using this

/-- The bytes gathered hold those of each fragment at its place. -/
theorem gathered_at_place {fs : List Fragment} {x : Fragment × ℕ} (hx : x ∈ placed 0 fs) :
    ((Fragment.gathered fs).take (x.2 + x.1.payload.length)).drop x.2 = x.1.payload := by
  have hslice := (chain_placed 0 fs).slice_flatMap (fun x => x.1.payload) (fun _ _ => rfl) x hx
  have hflat : (placed 0 fs).flatMap (fun x => x.1.payload) = Fragment.gathered fs := by
    conv_rhs => rw [Fragment.gathered, ← map_fst_placed 0 fs, List.flatMap_map]
  rwa [hflat, Nat.sub_zero, List.take_drop] at hslice

/-- A list that permutes images is the images of a permuted list. -/
theorem exists_perm_of_perm_map {α β : Type*} {f : α → β} {l : List β} {xs : List α}
    (h : l.Perm (xs.map f)) : ∃ ys : List α, ys.Perm xs ∧ l = ys.map f := by
  have hself : List.Forall₂ (fun b x => b = f x) (xs.map f) xs :=
    List.forall₂_map_left_iff.2 (List.forall₂_same.2 fun _ _ => rfl)
  obtain ⟨ys, hys, hperm⟩ := List.perm_comp_forall₂ h hself
  refine ⟨ys, hperm, ?_⟩
  rw [← List.forall₂_eq_eq_eq, List.forall₂_map_right_iff]
  exact hys

/-! ### The entry -/

theorem Fragment.bounds_of_accepted {f : Fragment} (h : f.refused = none) :
    f.total.toNat ≤ maxMessageLen ∧ f.index < f.count ∧
      f.offset.toNat + f.payload.length ≤ f.total.toNat := by
  simp only [refused] at h
  split_ifs at h with htotal hindex hcount hend
  have hlt : f.index < f.count := by
    by_contra hge
    exact hindex (.inr (UInt16.not_lt.1 hge))
  exact ⟨by omega, hlt, by omega⟩

namespace Partial

/-- The entry is what the fragments heard come to. -/
structure Holds (p : Partial) (heard : List Fragment) : Prop where
  total_le : p.total.toNat ≤ maxMessageLen
  accepted : ∀ f ∈ heard, f.refused = none
  shape : ∀ f ∈ heard, f.total = p.total ∧ f.count = p.count
  channel_eq : p.channel = heard.findSome? Fragment.channel
  arrived_eq : p.arrived = Fragment.gathered (storedIn heard)
  arrived_le : p.arrived.length ≤ p.total.toNat
  pieces_perm : p.pieces.toList.Perm
    ((placed 0 (storedIn heard)).map fun x => (x.1.index, pieceAt x))

namespace Holds

theorem opened {f : Fragment} (h : f.refused = none) (now : ℕ) : (opened f now).Holds [] where
  total_le := (Fragment.bounds_of_accepted h).1
  accepted := by simp
  shape := by simp
  channel_eq := rfl
  arrived_eq := rfl
  arrived_le := Nat.zero_le _
  pieces_perm := by simp [Partial.opened, storedIn, placed]

variable {p : Partial} {heard : List Fragment} (h : p.Holds heard)
include h

theorem ageless : p.ageless.Holds heard :=
  ⟨h.total_le, h.accepted, h.shape, h.channel_eq, h.arrived_eq, h.arrived_le, h.pieces_perm⟩

theorem size_pieces : p.pieces.size = (storedIn heard).length := by
  have hlength := h.pieces_perm.length_eq
  rw [ExtTreeMap.length_toList, List.length_map] at hlength
  rw [hlength, ← List.length_map Prod.fst, map_fst_placed]

theorem mem_pieces {index : UInt16} :
    index ∈ p.pieces ↔ index ∈ (storedIn heard).map Fragment.index := by
  have hkeys := (h.pieces_perm.map Prod.fst).mem_iff (a := index)
  rw [ExtTreeMap.map_fst_toList_eq_keys, ExtTreeMap.mem_keys] at hkeys
  have hindexes : ((placed 0 (storedIn heard)).map fun x => (x.1.index, pieceAt x)).map Prod.fst =
      (storedIn heard).map Fragment.index := by
    conv_rhs => rw [← map_fst_placed 0 (storedIn heard)]
    simp only [List.map_map]
    rfl
  rw [hkeys, hindexes]

/-- **An entry that takes a fragment of its shape holds it with the ones before.** -/
theorem take {f : Fragment} (haccepted : f.refused = none) (hagrees : ¬ p.disagrees f) :
    (p.take f).2.Holds (heard ++ [f]) := by
  obtain ⟨htotal, hcount⟩ : p.total = f.total ∧ p.count = f.count := by
    simpa [disagrees] using hagrees
  have haccepted' : ∀ g ∈ heard ++ [f], g.refused = none := by
    intro g hg
    rcases List.mem_append.1 hg with hg | hg
    · exact h.accepted g hg
    · rw [List.mem_singleton.1 hg]; exact haccepted
  have hshape : ∀ g ∈ heard ++ [f], g.total = p.total ∧ g.count = p.count := by
    intro g hg
    rcases List.mem_append.1 hg with hg | hg
    · exact h.shape g hg
    · rw [List.mem_singleton.1 hg, htotal, hcount]; exact ⟨rfl, rfl⟩
  have hchannel : p.channel.or f.channel = (heard ++ [f]).findSome? Fragment.channel := by
    rw [h.channel_eq, List.findSome?_append, List.findSome?_singleton]
  have hstored : storedIn (heard ++ [f]) = keep (storedIn heard) f := storedIn_concat heard f
  by_cases hindex : f.index ∈ p.pieces
  · have hkeep : storedIn (heard ++ [f]) = storedIn heard := by
      rw [hstored, keep, if_pos (h.mem_pieces.1 hindex)]
    simp only [Partial.take, if_pos hindex]
    exact ⟨h.total_le, haccepted', hshape, hchannel, hkeep ▸ h.arrived_eq, h.arrived_le,
      hkeep ▸ h.pieces_perm⟩
  have hindex' := mt h.mem_pieces.2 hindex
  simp only [Partial.take, if_neg hindex]
  split_ifs with hmuch
  · have hkeep : storedIn (heard ++ [f]) = storedIn heard := by
      rw [hstored, keep, if_neg hindex', if_pos (by rw [← h.arrived_eq, ← htotal]; exact hmuch)]
    exact ⟨h.total_le, haccepted', hshape, hchannel, hkeep ▸ h.arrived_eq, h.arrived_le,
      hkeep ▸ h.pieces_perm⟩
  · have hkeep : storedIn (heard ++ [f]) = storedIn heard ++ [f] := by
      rw [hstored, keep, if_neg hindex', if_neg (by rw [← h.arrived_eq, ← htotal]; exact hmuch)]
    refine ⟨h.total_le, haccepted', hshape, hchannel, ?_, ?_, ?_⟩
    · rw [hkeep, Fragment.gathered, List.flatMap_append, List.flatMap_singleton, h.arrived_eq]
      rfl
    · simp only [List.length_append]
      omega
    · refine (OrderedMap.toList_insert_perm _ hindex).trans ?_
      rw [hkeep, placed_concat, List.map_append, Nat.zero_add, ← h.arrived_eq]
      exact (h.pieces_perm.cons _).trans (List.perm_append_singleton _ _).symm

/-- The pieces the scan walks are those of the fragments kept, sorted by their offsets. -/
theorem exists_sorted (sort : UnstableSort) :
    ∃ w : List (Fragment × ℕ), w.Perm (placed 0 (storedIn heard)) ∧
      sort.sort (p.pieces.toList.map Prod.snd) = w.map pieceAt ∧
      (w.map Prod.fst).Pairwise fun f g => f.offset.toNat ≤ g.offset.toNat := by
  have hvalues : ((placed 0 (storedIn heard)).map fun x => (x.1.index, pieceAt x)).map Prod.snd =
      (placed 0 (storedIn heard)).map pieceAt := by
    simp only [List.map_map]
    rfl
  have hperm := (sort.perm _).trans (h.pieces_perm.map Prod.snd)
  rw [hvalues] at hperm
  obtain ⟨w, hw, hsort⟩ := exists_perm_of_perm_map hperm
  refine ⟨w, hw, hsort, ?_⟩
  have hsorted := sort.sorted (p.pieces.toList.map Prod.snd)
  rw [hsort, List.pairwise_map] at hsorted
  exact List.pairwise_map.2 hsorted

end Holds

/-- A payload there is too much of is not put down. -/
theorem not_mem_of_tooMuch {p : Partial} {f : Fragment} (h : (p.take f).1 = .tooMuch) :
    f.index ∉ (p.take f).2.pieces := by
  revert h
  simp only [Partial.take]
  split_ifs with hindex hmuch
  · exact fun h => by cases h
  · exact fun _ => hindex
  · exact fun h => by cases h

/-- The scan goes through exactly where the fragments tile the message from where it is. -/
theorem layOut_eq_some {arrived : Bytes} {w : List (Fragment × ℕ)} {payload out : Bytes}
    (hbytes : ∀ x ∈ w, (arrived.take ((pieceAt x).at_.toNat + (pieceAt x).len.toNat)).drop
      (pieceAt x).at_.toNat = x.1.payload) :
    layOut arrived (w.map pieceAt) payload = some out ↔
      Tiling.Chain (fun f : Fragment => f.offset.toNat) (fun f => f.payload.length) payload.length
        (w.map Prod.fst) out.length ∧ out = payload ++ Fragment.gathered (w.map Prod.fst) := by
  induction w generalizing payload with
  | nil =>
    simp only [List.map_nil, layOut, Option.some.injEq, Tiling.chain_nil, Fragment.gathered,
      List.flatMap_nil, List.append_nil]
    exact ⟨fun h => by simp [h], fun h => h.2.symm⟩
  | cons x w ih =>
    have hx := hbytes x (by simp)
    have hrest := @ih (payload ++ x.1.payload) fun y hy => hbytes y (by simp [hy])
    simp only [List.map_cons, layOut, hx]
    split_ifs with hstart
    · simp only [false_iff]
      exact fun h => hstart h.1.1
    · rw [hrest, List.length_append]
      have hstart' : x.1.offset.toNat = payload.length := not_not.1 hstart
      simp only [Tiling.chain_cons, hstart', true_and, Fragment.gathered, List.flatMap_cons,
        List.append_assoc]

/-- The message that an entry gives, where the sort leaves its pieces in the order of `w`. -/
theorem Holds.assemble_iff {p : Partial} {heard : List Fragment} (h : p.Holds heard)
    {sort : UnstableSort} {w : List (Fragment × ℕ)} (hw : w.Perm (placed 0 (storedIn heard)))
    (hsort : sort.sort (p.pieces.toList.map Prod.snd) = w.map pieceAt) (frame : Frame) :
    p.assemble sort = some frame ↔
      Fragment.Tile (w.map Prod.fst) p.total.toNat ∧
        frame.payload = Fragment.gathered (w.map Prod.fst) ∧ p.channel = some frame.channel := by
  have hordered : (w.map Prod.fst).Perm (storedIn heard) := by
    have := hw.map Prod.fst
    rwa [map_fst_placed] at this
  -- No place and no length is cut off in the 32 bits of a piece.
  have hsmall : maxMessageLen < 2 ^ 32 := by decide
  have hbytes : ∀ x ∈ w, (p.arrived.take ((pieceAt x).at_.toNat + (pieceAt x).len.toNat)).drop
      (pieceAt x).at_.toNat = x.1.payload := by
    intro x hx
    have hplace := (chain_placed 0 (storedIn heard)).bounds x (hw.mem_iff.1 hx)
    have hle := h.arrived_le
    have htotal := h.total_le
    rw [h.arrived_eq] at hle
    have hat : (pieceAt x).at_.toNat = x.2 := UInt32.toNat_ofNat_of_lt' (by
      show x.2 < 2 ^ 32
      omega)
    have hlen : (pieceAt x).len.toNat = x.1.payload.length := UInt32.toNat_ofNat_of_lt' (by
      show x.1.payload.length < 2 ^ 32
      omega)
    rw [hat, hlen, h.arrived_eq]
    exact gathered_at_place (hw.mem_iff.1 hx)
  have hlength : (Fragment.gathered (w.map Prod.fst)).length = p.arrived.length := by
    rw [h.arrived_eq]
    exact (hordered.flatMap_right Fragment.payload).length_eq
  have hlay : ∀ out, layOut p.arrived (w.map pieceAt) [] = some out ↔
      Tiling.Chain (fun f : Fragment => f.offset.toNat) (fun f => f.payload.length) 0
        (w.map Prod.fst) out.length ∧ out = Fragment.gathered (w.map Prod.fst) := fun out => by
    rw [layOut_eq_some hbytes]
    rfl
  unfold Partial.assemble
  rw [hsort]
  constructor
  · intro hframe
    split_ifs at hframe with hwhole
    cases hout : layOut p.arrived (w.map pieceAt) [] with
    | none => simp [hout] at hframe
    | some out =>
      obtain ⟨hchain, rfl⟩ := (hlay out).1 hout
      simp only [hout] at hframe
      split_ifs at hframe with htotal
      cases hchannel : p.channel with
      | none => simp [hchannel] at hframe
      | some channel =>
        simp only [hchannel, Option.some.injEq] at hframe
        subst hframe
        exact ⟨by rwa [not_not.1 htotal] at hchain, rfl, rfl⟩
  · rintro ⟨htile, hpayload, hchannel⟩
    have htotal : (Fragment.gathered (w.map Prod.fst)).length = p.total.toNat := by
      have := htile.length_flatMap Fragment.payload fun _ _ => rfl
      simpa [Fragment.gathered] using this
    have hout := (hlay _).2 ⟨by rw [htotal]; exact htile, rfl⟩
    rw [← hpayload] at htotal hout
    rw [if_neg (by rw [← hlength, ← hpayload]; exact not_not.2 htotal), hout]
    simp only [hchannel]
    rw [if_neg (not_not.2 htotal)]

/-- **The message an entry gives is its fragments by their offsets, where they tile it.** -/
theorem Holds.assemble {p : Partial} {heard : List Fragment} (h : p.Holds heard)
    (sort : UnstableSort) :
    ∃ ordered : List Fragment, ordered.Perm (storedIn heard) ∧
      ordered.Pairwise (fun f g => f.offset.toNat ≤ g.offset.toNat) ∧
      ∀ frame, p.assemble sort = some frame ↔
        Fragment.Tile ordered p.total.toNat ∧ frame.payload = Fragment.gathered ordered ∧
          p.channel = some frame.channel := by
  obtain ⟨w, hw, hsort, hsorted⟩ := h.exists_sorted sort
  have hordered := hw.map Prod.fst
  rw [map_fst_placed] at hordered
  exact ⟨w.map Prod.fst, hordered, hsorted, h.assemble_iff hw hsort⟩

end Partial

end LcmBus.Udpm
