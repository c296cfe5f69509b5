import LcmBus.Wire.Delivery
import LcmBus.Wire.Independence
import LcmBus.Wire.UdpmLayout

/-!
# A message there and back

What `encode` makes of a message comes out of a reassembler as that message, in any sequence and
with any of it twice.

* `Cut`: a message cut into fragments, by whatever encoder;
* `Cut.step_arrival`: what the message alone answers to one more of them;
* `Reassembler.feed_arrival`: what a reassembler that hears nothing else answers;
* `encode_arrives`: the datagrams of `encode` are a message whole, or a cut of it.
-/

open Std (ExtTreeMap TransOrd LawfulEqOrd)

namespace LcmBus.Udpm

/-- The message cut into fragments, each with bytes of its own. -/
structure Cut (sequence : UInt32) (frame : Frame) (fragments : List Fragment) : Prop where
  refused_eq : ∀ f ∈ fragments, f.refused = none
  sequence_eq : ∀ f ∈ fragments, f.sequence = sequence
  total_eq : ∀ f ∈ fragments, f.total.toNat = frame.payload.length
  count_eq : ∀ f ∈ fragments, f.count.toNat = fragments.length
  index_eq : fragments.map (fun f => f.index.toNat) = List.range fragments.length
  channel_eq : ∀ f ∈ fragments, f.channel = if f.index = 0 then some frame.channel else none
  payload_pos : ∀ f ∈ fragments, 0 < f.payload.length
  tile : Fragment.Tile fragments frame.payload.length
  gathered_eq : Fragment.gathered fragments = frame.payload

namespace Cut

variable {sequence : UInt32} {frame : Frame} {fragments : List Fragment}
  (h : Cut sequence frame fragments)
include h

theorem nodup : fragments.Nodup :=
  List.Nodup.of_map (fun f => f.index.toNat) (h.index_eq ▸ List.nodup_range)

theorem eq_of_index {f g : Fragment} (hf : f ∈ fragments) (hg : g ∈ fragments)
    (hindex : f.index = g.index) : f = g := by
  have hnodup : (fragments.map fun f => f.index.toNat).Nodup := h.index_eq ▸ List.nodup_range
  exact List.inj_on_of_nodup_map hnodup hf hg (congrArg UInt16.toNat hindex)

/-- Fragments with different indexes are no longer than the message. -/
theorem length_gathered_le (stored : List Fragment) (hsub : stored ⊆ fragments)
    (hnodup : stored.Nodup) : (Fragment.gathered stored).length ≤ frame.payload.length := by
  obtain ⟨l, hperm, hl⟩ := hnodup.subperm hsub
  calc (Fragment.gathered stored).length = (Fragment.gathered l).length :=
        (hperm.flatMap_right Fragment.payload).length_eq.symm
    _ ≤ (Fragment.gathered fragments).length := (hl.flatMap Fragment.payload).length_le
    _ = frame.payload.length := by rw [h.gathered_eq]

/-- Every fragment heard of a cut message is kept. -/
theorem mem_storedIn {heard : List Fragment} (hheard : heard ⊆ fragments) :
    ∀ f ∈ heard, f ∈ storedIn heard := by
  induction heard using List.reverseRecOn with
  | nil => simp
  | append_singleton heard g ih =>
    obtain ⟨hbefore, hg⟩ : heard ⊆ fragments ∧ g ∈ fragments := by
      simpa [List.append_subset] using hheard
    have hstored : storedIn heard ⊆ fragments :=
      List.Subset.trans (storedIn_sublist heard).subset hbefore
    rw [storedIn_concat]
    have hkeeps : g ∈ keep (storedIn heard) g ∧ storedIn heard ⊆ keep (storedIn heard) g := by
      unfold keep
      split_ifs with hindex hmuch
      · obtain ⟨f, hf, hfg⟩ := List.mem_map.1 hindex
        exact ⟨h.eq_of_index (hstored hf) hg hfg ▸ hf, List.Subset.refl _⟩
      · -- What is kept, and this one with it, would be longer than the message.
        have hnew : g ∉ storedIn heard := fun hmem => hindex (List.mem_map_of_mem hmem)
        have hle := h.length_gathered_le (storedIn heard ++ [g])
          (by simp [List.append_subset, hstored, hg])
          ((nodup_storedIn heard).append (List.nodup_singleton g) (by simpa using hnew))
        rw [Fragment.gathered, List.flatMap_append, List.flatMap_singleton,
          List.length_append, ← h.total_eq g hg] at hle
        exact absurd hmuch (by rw [Fragment.gathered]; omega)
      · exact ⟨by simp, List.subset_append_left _ _⟩
    intro f hf
    rcases List.mem_append.1 hf with hf | hf
    · exact hkeeps.2 (ih hbefore f hf)
    · rw [List.mem_singleton.1 hf]; exact hkeeps.1

/-- All of a cut message was heard where as much is kept as it has fragments. -/
theorem length_storedIn_lt_iff {heard : List Fragment} (hheard : heard ⊆ fragments) :
    (storedIn heard).length < fragments.length ↔ ¬ fragments ⊆ heard := by
  have hstored : storedIn heard ⊆ fragments :=
    List.Subset.trans (storedIn_sublist heard).subset hheard
  rw [← not_le, not_iff_not]
  constructor
  · intro hmany
    have hperm := ((nodup_storedIn heard).subperm hstored).perm_of_length_le hmany
    exact List.Subset.trans hperm.symm.subset (storedIn_sublist heard).subset
  · intro hall
    exact (h.nodup.subperm fun f hf => h.mem_storedIn hheard f (hall hf)).length_le

/-- The one name heard of a cut message is its channel. -/
theorem findSome?_channel {heard : List Fragment} (hheard : heard ⊆ fragments)
    (hall : fragments ⊆ heard) (hnonempty : fragments ≠ []) :
    heard.findSome? Fragment.channel = some frame.channel := by
  obtain ⟨f, hf, hzero⟩ : ∃ f ∈ fragments, f.index.toNat = 0 := by
    have hmem : 0 ∈ fragments.map fun f => f.index.toNat := by
      rw [h.index_eq, List.mem_range]
      exact List.length_pos_iff.2 hnonempty
    exact List.mem_map.1 hmem
  have hname : f.channel = some frame.channel := by
    rw [h.channel_eq f hf, if_pos (UInt16.toNat_inj.1 hzero)]
  cases hfound : heard.findSome? Fragment.channel with
  | none =>
    have := List.findSome?_eq_none_iff.1 hfound f (hall hf)
    simp [hname] at this
  | some name =>
    obtain ⟨g, hg, hgname⟩ := List.exists_of_findSome?_eq_some hfound
    rw [h.channel_eq g (hheard hg), Option.ite_none_right_eq_some] at hgname
    exact congrArg some (Option.some.inj hgname.2).symm

/-- **A cut message heard in full is put back together.** -/
theorem assemble_eq (sort : UnstableSort) {p : Partial} {heard : List Fragment}
    (hp : p.Holds heard) (hheard : heard ⊆ fragments) (hall : fragments ⊆ heard)
    (hnonempty : fragments ≠ []) (htotal : p.total.toNat = frame.payload.length) :
    p.assemble sort = some frame := by
  obtain ⟨ordered, hperm, hsorted, hiff⟩ := hp.assemble sort
  have hstored : (storedIn heard).Perm fragments :=
    (List.perm_ext_iff_of_nodup (nodup_storedIn heard) h.nodup).2 fun f =>
      ⟨fun hf => hheard ((storedIn_sublist heard).subset hf),
        fun hf => h.mem_storedIn hheard f (hall hf)⟩
  have hordered : ordered = fragments :=
    h.tile.eq_of_perm h.payload_pos (hperm.trans hstored) hsorted
  subst hordered
  refine (hiff frame).2 ⟨htotal ▸ h.tile, h.gathered_eq.symm, ?_⟩
  rw [hp.channel_eq]
  exact h.findSome?_channel hheard hall hnonempty

omit h in
/-- What the message alone is, behind fragments of it of which some are still missing. -/
structure Arrived (frame : Frame) (fragments : List Fragment) (entry : Option Partial)
    (since : List Fragment) : Prop where
  subset : since ⊆ fragments
  holds : Assembly.Holds entry since
  since_ne : ∀ p ∈ entry, since ≠ []
  shape : ∀ p ∈ entry, p.total.toNat = frame.payload.length ∧ p.count.toNat = fragments.length

omit h in
theorem arrived_none : Arrived frame fragments none [] := ⟨by simp, rfl, by simp, by simp⟩

/-- **A message answers its last missing fragment with itself, and any other with nothing.** -/
theorem step_arrival (sort : UnstableSort) {entry : Option Partial} {since : List Fragment}
    (harrived : Arrived frame fragments entry since) {f : Fragment} (hf : f ∈ fragments) :
    (Assembly.step sort entry f).1 =
        .ok (if fragments ⊆ since ++ [f] then some frame else none) ∧
      Arrived frame fragments (Assembly.step sort entry f).2
        (if fragments ⊆ since ++ [f] then [] else since ++ [f]) := by
  have hsub : since ++ [f] ⊆ fragments := by simp [List.append_subset, harrived.subset, hf]
  have haccepted : accepted since = since :=
    List.filter_eq_self.2 fun g hg => by simpa using h.refused_eq g (harrived.subset hg)
  have hholds : accepted (since ++ [f]) = since ++ [f] := by
    rw [accepted_concat_of_accepted (h.refused_eq f hf), haccepted]
  obtain ⟨e, hrefused, -⟩ | ⟨-, ⟨p, hp, hdis⟩, -⟩ | ⟨-, -, kept, p, hp, htotal, hcount, hkept, hstep⟩ :=
    Assembly.step_cases harrived.holds sort f
  · rw [h.refused_eq f hf] at hrefused
    cases hrefused
  · obtain ⟨htotal, hcount⟩ := harrived.shape p hp
    rw [← h.total_eq f hf, UInt32.toNat_inj] at htotal
    rw [← h.count_eq f hf, UInt16.toNat_inj] at hcount
    exact absurd hdis (by simp [Partial.disagrees, htotal, hcount])
  · rw [haccepted] at hp hstep
    -- The fragment is one that is kept, so it is not one there is too much of.
    have hroom : ¬ kept = .tooMuch := by
      rintro rfl
      have hnot := Partial.not_mem_of_tooMuch (congrArg Prod.fst hkept)
      rw [hkept, hp.mem_pieces] at hnot
      exact hnot (List.mem_map_of_mem (h.mem_storedIn hsub f (by simp)))
    have htotal' : p.total.toNat = frame.payload.length := by rw [htotal, h.total_eq f hf]
    have hcount' : p.count.toNat = fragments.length := by rw [hcount, h.count_eq f hf]
    rw [if_neg hroom, h.count_eq f hf] at hstep
    by_cases hall : fragments ⊆ since ++ [f]
    · have hmany := mt (h.length_storedIn_lt_iff hsub).1 (not_not.2 hall)
      rw [if_neg hmany, Assembly.finish,
        h.assemble_eq sort hp hsub hall (List.ne_nil_of_mem hf) htotal'] at hstep
      rw [hstep, if_pos hall, if_pos hall]
      exact ⟨rfl, arrived_none⟩
    · rw [if_pos ((h.length_storedIn_lt_iff hsub).2 hall)] at hstep
      rw [hstep, if_neg hall, if_neg hall]
      refine ⟨rfl, hsub, ?_, by simp, ?_⟩
      · show p.Holds (accepted (since ++ [f]))
        rwa [hholds]
      · rintro q ⟨⟩
        exact ⟨htotal', hcount'⟩

end Cut

/-! ### In a reassembler -/

namespace Reassembler

/-- The fragments that came since a message was delivered, by the answers they got. -/
def sinceDelivery (arrivals : List Fragment) (answers : List (Except WireError (Option Frame))) :
    List Fragment :=
  (arrivals.zip answers).foldl (fun since x => match x.2 with
    | .ok (some _) => []
    | _ => since ++ [x.1]) []

theorem sinceDelivery_concat {arrivals : List Fragment}
    {answers : List (Except WireError (Option Frame))} (hlength : arrivals.length = answers.length)
    (f : Fragment) (delivered : Option Frame) :
    sinceDelivery (arrivals ++ [f]) (answers ++ [.ok delivered]) =
      if delivered.isSome then [] else sinceDelivery arrivals answers ++ [f] := by
  rw [sinceDelivery, List.zip_append hlength, List.foldl_append]
  cases delivered <;> rfl

variable {K : Type} [Ord K] [TransOrd K] [LawfulEqOrd K] [DecidableEq K]
variable {sequence : UInt32} {frame : Frame} {fragments : List Fragment}

/-- What a fresh reassembler is, behind any of the fragments of a cut message. -/
theorem arrivals_invariant (h : Cut sequence frame fragments) (sort : UnstableSort) (source : K)
    {arrivals : List Fragment} (hsub : arrivals ⊆ fragments) :
    let feds := arrivals.map (source, ·)
    let s := Machine.final (feedStep sort) new feds
    Alone (source, sequence) s ∧ s.evicted = 0 ∧
      Cut.Arrived frame fragments (s.view (source, sequence))
        (sinceDelivery arrivals (Machine.answers (feedStep sort) new feds)) := by
  induction arrivals using List.reverseRecOn with
  | nil =>
    refine ⟨Alone.new _, rfl, ?_⟩
    rw [List.map_nil, Machine.final_nil, view_new]
    exact Cut.arrived_none
  | append_singleton arrivals f ih =>
    obtain ⟨hbefore, hf⟩ : arrivals ⊆ fragments ∧ f ∈ fragments := by
      simpa [List.append_subset] using hsub
    obtain ⟨halone, hevicted, harrived⟩ := ih hbefore
    intro feds s
    have hkey : Fed.key (source, f) = (source, sequence) :=
      congrArg (Prod.mk source) (h.sequence_eq f hf)
    have hfinal : s = (feedStep sort (Machine.final (feedStep sort) new
        (arrivals.map (source, ·))) (source, f)).2 := by
      simp only [s, feds, List.map_append, List.map_singleton, Machine.final_concat]
    set before := Machine.final (feedStep sort) new (arrivals.map (source, ·)) with hbefore'
    have hview := before.feed_view sort source f
    rw [h.sequence_eq f hf] at hview
    obtain ⟨hanswer, harrived'⟩ := h.step_arrival sort harrived hf
    rw [← hview] at hanswer harrived'
    obtain ⟨halone', hevicted'⟩ := halone.feedStep sort hkey
    have hanswers : Machine.answers (feedStep sort) new feds =
        Machine.answers (feedStep sort) new (arrivals.map (source, ·)) ++
          [(before.feed sort source f).1] := by
      simp only [feds, List.map_append, List.map_singleton, Machine.answers_append]
      rfl
    have hlength : arrivals.length = (Machine.answers (feedStep sort) new
        (arrivals.map (source, ·))).length := by
      rw [Machine.length_answers, List.length_map]
    rw [hfinal]
    refine ⟨halone', hevicted'.trans hevicted, ?_⟩
    rw [hanswers, hanswer, sinceDelivery_concat hlength]
    generalize sinceDelivery arrivals _ = since at harrived' ⊢
    by_cases hall : fragments ⊆ since ++ [f]
    · rw [if_pos hall] at harrived' ⊢
      exact harrived'
    · rw [if_neg hall] at harrived' ⊢
      exact harrived'

/-- **A fresh reassembler answers the fragments of a message, in any sequence and each as often as
it comes, with nothing, and with the message where they are all there since it last was.** -/
theorem feed_arrival (h : Cut sequence frame fragments) (sort : UnstableSort) (source : K)
    {arrivals : List Fragment} (hsub : arrivals ⊆ fragments) {f : Fragment} (hf : f ∈ fragments) :
    let feds := arrivals.map (source, ·)
    let since := sinceDelivery arrivals (Machine.answers (feedStep sort) new feds)
    let fed := (Machine.final (feedStep sort) new feds).feed sort source f
    fed.1 = .ok (if fragments ⊆ since ++ [f] then some frame else none) ∧ fed.2.evicted = 0 ∧
      (fragments ⊆ since ++ [f] → fed.2.inFlight = 0) := by
  intro feds since fed
  obtain ⟨halone, hevicted, harrived⟩ := arrivals_invariant h sort source hsub
  obtain ⟨hanswer, harrived'⟩ := h.step_arrival sort harrived hf
  have hkey : Fed.key (source, f) = (source, sequence) :=
    congrArg (Prod.mk source) (h.sequence_eq f hf)
  obtain ⟨halone', hevicted'⟩ := halone.feedStep sort hkey
  have hview := (Machine.final (feedStep sort) new feds).feed_view sort source f
  rw [h.sequence_eq f hf] at hview
  rw [← hview] at hanswer harrived'
  refine ⟨hanswer, hevicted'.trans hevicted, fun hall => halone'.inFlight_eq_zero ?_⟩
  rw [if_pos hall] at harrived'
  show fed.2.view (source, sequence) = none
  cases hentry : fed.2.view (source, sequence) with
  | none => rfl
  | some p => exact absurd rfl (harrived'.since_ne p hentry)

end Reassembler

/-! ### What `encode` makes -/

/-- The fragments of a layout are a cut of its message. -/
theorem Fragments.Several.cut {f : Fragments} (h : f.Several) {frame : Frame}
    (hpayload : f.payload = frame.payload) :
    Cut f.sequence frame ((List.range f.count).map (f.fragmentAt frame.channel)) := by
  have hmax : maxMessageLen = 2 ^ 28 := rfl
  have hle := h.payload_le
  have hcountle := h.count_le
  have htotal : ∀ i, (f.fragmentAt frame.channel i).total.toNat = f.payload.length := fun i =>
    UInt32.toNat_ofNat_of_lt' (by show f.payload.length < 2 ^ 32; omega)
  have hcount : ∀ i, (f.fragmentAt frame.channel i).count.toNat = f.count := fun i =>
    UInt16.toNat_ofNat_of_lt' (by show f.count < 2 ^ 16; omega)
  have hindex : ∀ i < f.count, (f.fragmentAt frame.channel i).index.toNat = i := fun i hi =>
    UInt16.toNat_ofNat_of_lt' (by show i < 2 ^ 16; omega)
  have hoffset : ∀ i < f.count, (f.fragmentAt frame.channel i).offset.toNat = f.start i :=
    fun i hi => UInt32.toNat_ofNat_of_lt' (by
      show f.start i < 2 ^ 32
      have := h.start_lt hi
      omega)
  have hmem : ∀ {P : Fragment → Prop}, (∀ i < f.count, P (f.fragmentAt frame.channel i)) →
      ∀ g ∈ (List.range f.count).map (f.fragmentAt frame.channel), P g := by
    intro P hP g hg
    obtain ⟨i, hi, rfl⟩ := List.mem_map.1 hg
    exact hP i (List.mem_range.1 hi)
  refine ⟨hmem fun i hi => ?_, hmem fun i _ => rfl, hmem fun i _ => ?_, hmem fun i _ => ?_, ?_,
    hmem fun i hi => ?_, hmem fun i hi => h.body_pos hi, ?_, ?_⟩
  · have hfew := h.count_le_payload
    have hend := h.start_add_length_body hi
    have hzero : ¬ (f.fragmentAt frame.channel i).count = 0 := fun heq => by
      have := hcount i
      rw [heq] at this
      have hnone : f.count = 0 := this.symm
      omega
    have hlt : ¬ (f.fragmentAt frame.channel i).index ≥ (f.fragmentAt frame.channel i).count := by
      rw [ge_iff_le, UInt16.le_iff_toNat_le, hcount, hindex i hi]
      omega
    simp only [Fragment.refused, hzero, hlt, htotal, hcount, hoffset i hi]
    rw [if_neg (by omega), if_neg (by simp), if_neg (by omega), if_neg]
    show ¬ f.start i + (f.body i).length > f.payload.length
    omega
  · rw [htotal, hpayload]
  · rw [hcount, List.length_map, List.length_range]
  · rw [List.map_map, List.length_map, List.length_range]
    exact (List.map_congr_left fun i hi => hindex i (List.mem_range.1 hi)).trans (List.map_id _)
  · have hzero : (f.fragmentAt frame.channel i).index = 0 ↔ i = 0 := by
      rw [← UInt16.toNat_inj, hindex i hi]
      rfl
    simp only [hzero]
    rfl
  · rw [Fragment.Tile, ← hpayload]
    exact h.chain.map fun i hi => ⟨hoffset i (List.mem_range.1 hi), rfl⟩
  · rw [Fragment.gathered, List.flatMap_map, ← hpayload]
    exact h.flatMap_body

theorem encode_eq_ok {sequence : UInt32} {frame : Frame} {shortMax : ℕ} {datagrams : List Bytes}
    (h : encode sequence frame shortMax = .ok datagrams) :
    ∃ f, Udpm.fragments sequence frame shortMax = .ok f ∧
      datagrams = f.toList.map fun x => x.1.asRef ++ x.2 := by
  unfold encode at h
  cases hf : Udpm.fragments sequence frame shortMax with
  | error e => simp [hf, bind, Except.bind] at h
  | ok f =>
    simp only [hf, bind, Except.bind, pure, Except.pure, Except.ok.injEq] at h
    exact ⟨f, rfl, h.symm⟩

/-- **The round trip of the wire format.**  Every datagram of a message decodes; one alone decodes
to the message; and of several, a fresh reassembler makes the message each time they are all there,
whatever the sequence they come in and however often, and never evicts. -/
theorem encode_arrives {sequence : UInt32} {frame : Frame} {shortMax : ℕ} {datagrams : List Bytes}
    (h : encode sequence frame shortMax = .ok datagrams) :
    ∃ decoded : List Datagram, datagrams.map decode = decoded.map .ok ∧
      (datagrams.length = 1 → decoded = [.whole sequence frame]) ∧
      (datagrams.length ≠ 1 → ∃ fragments : List Fragment, decoded = fragments.map .fragment ∧
        fragments.map (fun f => f.index.toNat) = List.range datagrams.length ∧
        ∀ (K : Type) [Ord K] [TransOrd K] [LawfulEqOrd K] [DecidableEq K] (sort : UnstableSort)
          (source : K) (arrivals : List Fragment), arrivals ⊆ fragments → ∀ f ∈ fragments,
          let feds := arrivals.map (source, ·)
          let since := Reassembler.sinceDelivery arrivals
            (Machine.answers (Reassembler.feedStep sort) .new feds)
          let fed := (Machine.final (Reassembler.feedStep sort) .new feds).feed sort source f
          fed.1 = .ok (if fragments ⊆ since ++ [f] then some frame else none) ∧
            fed.2.evicted = 0 ∧ (fragments ⊆ since ++ [f] → fed.2.inFlight = 0)) := by
  obtain ⟨f, hf, hdatagrams⟩ := encode_eq_ok h
  obtain ⟨hvalid, rfl | ⟨hseveral, rfl, hchannel, hpayload⟩⟩ := fragments_cases hf
  · rw [Fragments.toList_eq _ rfl] at hdatagrams
    subst hdatagrams
    refine ⟨[.whole sequence frame], ?_, fun _ => rfl, fun hlength => absurd rfl hlength⟩
    exact congrArg (fun d => [d]) (decode_whole hvalid)
  · rw [Fragments.toList_eq f hseveral.index_zero, List.map_map] at hdatagrams
    have hlength : datagrams.length = f.count := by simp [hdatagrams]
    have hcut := hseveral.cut hpayload
    refine ⟨((List.range f.count).map (f.fragmentAt frame.channel)).map .fragment, ?_, ?_, ?_⟩
    · rw [hdatagrams, List.map_map, List.map_map, List.map_map]
      exact List.map_congr_left fun i hi =>
        hseveral.decode_item hchannel.symm hvalid (List.mem_range.1 hi)
    · intro hone
      have := hseveral.two_le
      omega
    · refine fun _ => ⟨_, rfl, ?_, fun K _ _ _ _ sort source arrivals hsub g hg =>
        Reassembler.feed_arrival hcut sort source hsub hg⟩
      rw [hcut.index_eq, List.length_map, List.length_range, hlength]

/-- The fragments of a message of twenty bytes, in datagrams of sixteen at most. -/
def ofTwenty : List Fragment :=
  (List.range 6).map fun i =>
    { sequence := 7, total := 20, offset := UInt32.ofNat (4 * i - 2), index := UInt16.ofNat i,
      count := 6, channel := if i = 0 then some "A" else none,
      payload := if i = 0 ∨ i = 5 then [5, 5] else [5, 5, 5, 5] }

/-- All six come, and then all but one of them from the last to the first.  The one that is left gives
the message a second time, and nothing of it stays. -/
theorem encode_arrives_of_twenty : ∃ datagrams : List Bytes,
    encode 7 ⟨"A", List.replicate 20 5⟩ 16 = .ok datagrams ∧ datagrams.length = 6 ∧
      datagrams.map decode = ofTwenty.map (fun f => .ok (.fragment f)) ∧
      ∀ f ∈ ofTwenty,
        let feds := (ofTwenty ++ (ofTwenty.erase f).reverse).map ((0 : ℕ), ·)
        let fed := (Machine.final (Reassembler.feedStep .insertion) .new feds).feed .insertion 0 f
        fed.1 = .ok (some ⟨"A", List.replicate 20 5⟩) ∧ fed.2.evicted = 0 ∧ fed.2.inFlight = 0 := by
  obtain ⟨datagrams, hencode⟩ :
      ∃ datagrams, encode 7 ⟨"A", List.replicate 20 5⟩ 16 = .ok datagrams := ⟨_, rfl⟩
  have hdatagrams : (encode 7 ⟨"A", List.replicate 20 5⟩ 16).toOption.map
      (fun datagrams => (datagrams.length, datagrams.map decode)) =
        some (6, ofTwenty.map fun f => .ok (.fragment f)) := by decide +kernel
  rw [hencode] at hdatagrams
  obtain ⟨hlength, hdecode⟩ := Prod.mk.inj (Option.some.inj hdatagrams)
  obtain ⟨decoded, hdecoded, -, hseveral⟩ := encode_arrives hencode
  obtain ⟨fragments, rfl, -, harrives⟩ := hseveral (by rw [hlength]; decide)
  obtain rfl : fragments = ofTwenty := by
    have hmap := hdecoded.symm.trans hdecode
    rw [List.map_map] at hmap
    exact List.map_injective_iff.2 (fun f g h => by cases h; rfl) hmap
  refine ⟨datagrams, hencode, hlength, hdecode, fun f hf => ?_⟩
  have hall : ∀ f ∈ ofTwenty, ofTwenty ⊆
      Reassembler.sinceDelivery (ofTwenty ++ (ofTwenty.erase f).reverse)
        (Machine.answers (Reassembler.feedStep .insertion) .new
          ((ofTwenty ++ (ofTwenty.erase f).reverse).map ((0 : ℕ), ·))) ++ [f] := by
    decide +kernel
  have hsub : ofTwenty ++ (ofTwenty.erase f).reverse ⊆ ofTwenty :=
    List.append_subset.2 ⟨List.Subset.refl _, List.reverse_subset.2 List.erase_subset⟩
  obtain ⟨hanswer, hevicted, hflight⟩ := harrives ℕ .insertion 0 _ hsub f hf
  exact ⟨hanswer.trans (by rw [if_pos (hall f hf)]), hevicted, hflight (hall f hf)⟩

end LcmBus.Udpm
