import LcmBus.Wire.Stored

/-!
# What a reassembler delivers

A message that comes out of a reassembler was put in: its fragments were heard under its key since
the entry of that key was last made, one for each index, and they tile the message.

* `Assembly.Holds`: what the entry of a message holds of the fragments since it was made;
* `Assembly.step_cases`: the three ways a step goes;
* `lifetime`: the fragments of a key since its entry was made, in a run of a reassembler;
* `delivered_is_stored`: what a delivery says of them.
-/

open Std (TransOrd LawfulEqOrd)

namespace LcmBus.Udpm

/-- Of the fragments fed, those that are not refused for themselves. -/
def accepted (fragments : List Fragment) : List Fragment := fragments.filter (·.refused = none)

theorem accepted_concat_of_accepted {f : Fragment} (h : f.refused = none)
    (fragments : List Fragment) : accepted (fragments ++ [f]) = accepted fragments ++ [f] := by
  simp [accepted, h]

theorem accepted_concat_of_refused {f : Fragment} {e : WireError} (h : f.refused = some e)
    (fragments : List Fragment) : accepted (fragments ++ [f]) = accepted fragments := by
  simp [accepted, h]

namespace Assembly

/-- An entry, and the fragments fed since it was made. -/
def Holds (entry : Option Partial) (since : List Fragment) : Prop :=
  match entry with
  | none => since = []
  | some p => p.Holds (accepted since)

/-- The fragments since the entry was made, behind one more: an entry that is gone has none. -/
def behind (entry : Option Partial) (since : List Fragment) : List Fragment :=
  match entry with
  | none => []
  | some _ => since

variable {entry : Option Partial} {since : List Fragment}

theorem mem_of_mem_behind {f : Fragment} (h : f ∈ behind entry since) : f ∈ since := by
  cases entry with
  | none => exact absurd h List.not_mem_nil
  | some p => exact h

/-- A step refuses the fragment, drops an entry of another shape, or takes the fragment. -/
theorem step_cases (h : Holds entry since) (sort : UnstableSort) (f : Fragment) :
    (∃ e, f.refused = some e ∧ step sort entry f = (.error e, entry)) ∨
    (f.refused = none ∧ (∃ p ∈ entry, p.disagrees f) ∧
      step sort entry f = (.error (.inconsistentFragment f.sequence), none)) ∨
    (f.refused = none ∧ (∀ p ∈ entry, ¬ p.disagrees f) ∧
      ∃ kept p, p.Holds (accepted since ++ [f]) ∧ p.total = f.total ∧ p.count = f.count ∧
        (entry.getD (Partial.opened f 0)).take f = (kept, p) ∧
        step sort entry f =
          if kept = .tooMuch then (.error (.inconsistentFragment f.sequence), some p)
          else if (storedIn (accepted since ++ [f])).length < f.count.toNat then (.ok none, some p)
          else finish sort f.sequence p) := by
  cases hrefused : f.refused with
  | some e => exact .inl ⟨e, rfl, by simp [step, hrefused]⟩
  | none =>
    by_cases hdis : ∃ p ∈ entry, p.disagrees f
    · exact .inr (.inl ⟨rfl, hdis, by simp only [step, hrefused, if_pos hdis]⟩)
    · have hagrees : ∀ p ∈ entry, ¬ p.disagrees f := fun p hp hd => hdis ⟨p, hp, hd⟩
      have hopen : (entry.getD (Partial.opened f 0)).Holds (accepted since) ∧
          ¬ (entry.getD (Partial.opened f 0)).disagrees f := by
        cases entry with
        | none =>
          have hsince : since = [] := h
          subst hsince
          exact ⟨.opened hrefused 0, by simp [Partial.disagrees, Partial.opened]⟩
        | some p => exact ⟨h, hagrees p rfl⟩
      have htake := hopen.1.take hrefused hopen.2
      rcases hkept : (entry.getD (Partial.opened f 0)).take f with ⟨kept, p⟩
      rw [hkept] at htake
      obtain ⟨htotal, hcount⟩ : f.total = p.total ∧ f.count = p.count := htake.shape f (by simp)
      refine .inr (.inr ⟨rfl, hagrees, kept, p, htake, htotal.symm, hcount.symm, rfl, ?_⟩)
      simp only [step, hrefused, if_neg hdis, hkept, htake.size_pieces, hcount]

/-- What an entry holds of the fragments since it was made, it holds behind one more. -/
theorem step_holds (h : Holds entry since) (sort : UnstableSort) (f : Fragment) :
    Holds (step sort entry f).2 (behind (step sort entry f).2 (since ++ [f])) := by
  obtain ⟨e, hrefused, hstep⟩ | ⟨-, -, hstep⟩ | ⟨hrefused, -, kept, p, hp, -, -, -, hstep⟩ :=
    step_cases h sort f
  · rw [hstep]
    cases entry with
    | none => rfl
    | some p =>
      show p.Holds (accepted (since ++ [f]))
      rw [accepted_concat_of_refused hrefused]
      exact h
  · rw [hstep]; rfl
  · have hp' : p.Holds (accepted (since ++ [f])) := by
      rwa [accepted_concat_of_accepted hrefused]
    rw [hstep]
    split_ifs
    · exact hp'
    · exact hp'
    · unfold finish
      cases p.assemble sort <;> rfl

/-- A step that delivers took the fragment, and the entry with it is whole. -/
theorem step_delivers (h : Holds entry since) {sort : UnstableSort} {f : Fragment} {frame : Frame}
    (hframe : (step sort entry f).1 = .ok (some frame)) :
    ∃ p : Partial, p.Holds (accepted (since ++ [f])) ∧ p.total = f.total ∧ p.count = f.count ∧
      f.count.toNat ≤ (storedIn (accepted (since ++ [f]))).length ∧
      p.assemble sort = some frame := by
  obtain ⟨e, -, hstep⟩ | ⟨-, -, hstep⟩ | ⟨hrefused, -, kept, p, hp, htotal, hcount, -, hstep⟩ :=
    step_cases h sort f
  · simp [hstep] at hframe
  · simp [hstep] at hframe
  · rw [hstep] at hframe
    rw [accepted_concat_of_accepted hrefused]
    refine ⟨p, hp, htotal, hcount, ?_⟩
    split_ifs at hframe with hmuch hfew
    · simp at hframe
    · refine ⟨by omega, ?_⟩
      unfold finish at hframe
      cases hassemble : p.assemble sort <;> simp_all

end Assembly

/-- The indexes of as many fragments as a message has are all its indexes. -/
theorem perm_range_of_count {stored : List Fragment} {count : UInt16}
    (hnodup : (stored.map Fragment.index).Nodup) (hlt : ∀ f ∈ stored, f.index < count)
    (hmany : count.toNat ≤ stored.length) :
    (stored.map fun f => f.index.toNat).Perm (List.range count.toNat) := by
  have hnodup' : (stored.map fun f => f.index.toNat).Nodup := by
    have := hnodup.map (f := UInt16.toNat) fun _ _ => UInt16.toNat_inj.1
    rwa [List.map_map] at this
  refine (hnodup'.subperm fun i hi => ?_).perm_of_length_le (by simpa using hmany)
  obtain ⟨f, hf, rfl⟩ := List.mem_map.1 hi
  exact List.mem_range.2 (UInt16.lt_iff_toNat_lt.1 (hlt f hf))

namespace Reassembler

variable {K : Type} [Ord K] [TransOrd K] [DecidableEq K]

/-- The fragments fed under a key since its entry was last made, behind the feeds `feds`, where
`since` are those before. -/
def lifetime (sort : UnstableSort) (key : Key K) :
    Reassembler K → List Fragment → List (Fed K) → List Fragment
  | _, since, [] => since
  | s, since, fed :: feds =>
    let t := (feedStep sort s fed).2
    let since := if fed.key = key then since ++ [fed.2] else since
    lifetime sort key t (Assembly.behind t.partials[key]? since) feds

variable [LawfulEqOrd K]

omit [LawfulEqOrd K] [DecidableEq K] in
theorem behind_view (s : Reassembler K) (key : Key K) (since : List Fragment) :
    Assembly.behind s.partials[key]? since = Assembly.behind (s.view key) since := by
  rw [view]
  cases s.partials[key]? <;> rfl

omit [LawfulEqOrd K] in
/-- A fragment of the lifetime of a key was fed. -/
theorem exists_fed_of_mem_lifetime {sort : UnstableSort} {key : Key K} {feds : List (Fed K)}
    {s : Reassembler K} {since : List Fragment} {f : Fragment}
    (h : f ∈ lifetime sort key s since feds) : f ∈ since ∨ ∃ fed ∈ feds, fed.2 = f := by
  induction feds generalizing s since with
  | nil => exact .inl h
  | cons fed feds ih =>
    rw [lifetime] at h
    rcases ih h with hbehind | ⟨fed', hfed', rfl⟩
    · have hmem := Assembly.mem_of_mem_behind hbehind
      split_ifs at hmem
      · rcases List.mem_append.1 hmem with hmem | hmem
        · exact .inl hmem
        · exact .inr ⟨fed, by simp, (List.mem_singleton.1 hmem).symm⟩
      · exact .inl hmem
    · exact .inr ⟨fed', by simp [hfed'], rfl⟩

/-- Behind every run an entry holds the fragments of its lifetime. -/
theorem lifetime_holds (sort : UnstableSort) (key : Key K) (feds : List (Fed K))
    {s : Reassembler K} {since : List Fragment} (h : Assembly.Holds (s.view key) since) :
    Assembly.Holds ((Machine.final (feedStep sort) s feds).view key)
      (lifetime sort key s since feds) := by
  induction feds generalizing s since with
  | nil => exact h
  | cons fed feds ih =>
    rw [Machine.final_cons, lifetime]
    apply ih
    rw [behind_view]
    split_ifs with hkey
    · subst hkey
      have hstep := Assembly.step_holds h sort fed.2
      have hview := s.feed_view sort fed.1 fed.2
      rw [show s.view fed.key = s.view (fed.1, fed.2.sequence) from rfl, ← hview] at hstep
      exact hstep
    · rcases s.feed_view_or_none sort fed.1 fed.2 (Ne.symm hkey) with hsame | hnone
      · rw [show (feedStep sort s fed).2.view key = s.view key from hsame]
        cases hentry : s.view key with
        | none => rfl
        | some p => rw [hentry] at h; exact h
      · rw [show (feedStep sort s fed).2.view key = none from hnone]
        rfl

/-- **The reassembler makes nothing up.**  Where a feed delivers a frame, one fragment is stored
for each index, all of one shape, out of the lifetime of the entry; they tile the message, each is
in the payload at its offset, and the name is one that a fragment of index zero brought. -/
theorem delivered_is_stored (sort : UnstableSort) (feds : List (Fed K)) (fed : Fed K)
    (hdecoded : ∀ f ∈ feds ++ [fed], f.2.channel.isSome ↔ f.2.index = 0) (frame : Frame)
    (hframe : (feedStep sort (Machine.final (feedStep sort) new feds) fed).1 = .ok (some frame)) :
    let heard := lifetime sort fed.key new [] feds ++ [fed.2]
    let stored := storedIn (accepted heard)
    stored.Sublist heard ∧
    (stored.map fun f => f.index.toNat).Perm (List.range fed.2.count.toNat) ∧
    (∀ f ∈ stored, f.total = fed.2.total ∧ f.count = fed.2.count) ∧
    (∀ f ∈ stored, f.offset.toNat + f.payload.length ≤ fed.2.total.toNat) ∧
    (∀ i < fed.2.total.toNat,
      ∃! f, f ∈ stored ∧ f.offset.toNat ≤ i ∧ i < f.offset.toNat + f.payload.length) ∧
    frame.payload.length = fed.2.total.toNat ∧
    (∀ f ∈ stored, (frame.payload.drop f.offset.toNat).take f.payload.length = f.payload) ∧
    ∃ f ∈ heard, f.index = 0 ∧ f.channel = some frame.channel := by
  intro heard stored
  set s := Machine.final (feedStep sort) new feds with hs
  have hnew : Assembly.Holds ((new : Reassembler K).view fed.key) [] := by rw [view_new]; rfl
  have hentry := lifetime_holds sort fed.key feds hnew
  have hstep : (Assembly.step sort (s.view fed.key) fed.2).1 = .ok (some frame) := by
    rw [← hframe]
    exact congrArg Prod.fst (s.feed_view sort fed.1 fed.2).symm
  obtain ⟨p, hp, htotal, hcount, hmany, hassemble⟩ := Assembly.step_delivers hentry hstep
  obtain ⟨ordered, hperm, -, hiff⟩ := hp.assemble sort
  obtain ⟨htile, hpayload, hchannel⟩ := (hiff frame).1 hassemble
  rw [htotal] at htile
  have hsub : stored.Sublist (accepted heard) := storedIn_sublist _
  have hshape : ∀ f ∈ stored, f.total = fed.2.total ∧ f.count = fed.2.count := fun f hf => by
    have := hp.shape f (hsub.subset hf)
    rwa [htotal, hcount] at this
  have hbounds : ∀ f ∈ stored, f.index < fed.2.count := fun f hf => by
    have := Fragment.bounds_of_accepted (hp.accepted f (hsub.subset hf))
    rw [← (hshape f hf).2]
    exact this.2.1
  refine ⟨hsub.trans List.filter_sublist,
    perm_range_of_count (nodup_index_storedIn _) hbounds hmany, hshape, ?_, ?_, ?_, ?_, ?_⟩
  · exact fun f hf => (htile.bounds f (hperm.mem_iff.2 hf)).2
  · intro i hi
    obtain ⟨f, ⟨hf, hcover⟩, hunique⟩ := htile.existsUnique_cover (Nat.zero_le i) hi
    exact ⟨f, ⟨hperm.mem_iff.1 hf, hcover⟩, fun g hg => hunique g ⟨hperm.mem_iff.2 hg.1, hg.2⟩⟩
  · have := htile.length_flatMap Fragment.payload fun _ _ => rfl
    rw [hpayload, Fragment.gathered]
    omega
  · intro f hf
    rw [hpayload]
    exact htile.slice_flatMap Fragment.payload (fun _ _ => rfl) f (hperm.mem_iff.2 hf)
  · rw [hp.channel_eq] at hchannel
    obtain ⟨f, hf, hname⟩ := List.exists_of_findSome?_eq_some hchannel
    have hheard : f ∈ heard := List.mem_of_mem_filter hf
    refine ⟨f, hheard, ?_, hname⟩
    have hfed : ∃ g ∈ feds ++ [fed], g.2 = f := by
      rcases List.mem_append.1 hheard with hmem | hmem
      · rcases exists_fed_of_mem_lifetime hmem with hnone | ⟨g, hg, rfl⟩
        · exact absurd hnone List.not_mem_nil
        · exact ⟨g, by simp [hg], rfl⟩
      · exact ⟨fed, by simp, (List.mem_singleton.1 hmem).symm⟩
    obtain ⟨g, hg, rfl⟩ := hfed
    exact (hdecoded g hg).1 (by simp [hname])

/-- A fragment, another with its index, and the one before it. -/
theorem delivered_is_stored_of_two :
    let feds : List (Fed ℕ) := [(0, .ofTwo 7 1 2), (0, .ofTwo 7 1 9)]
    let heard := lifetime .insertion (0, 7) new [] feds ++ [.ofTwo 7 0 1]
    ((storedIn (accepted heard)).map fun f => f.index.toNat).Perm (List.range 2) :=
  (delivered_is_stored .insertion [(0, .ofTwo 7 1 2), (0, .ofTwo 7 1 9)] (0, .ofTwo 7 0 1)
    (by decide) ⟨"A", [1, 2]⟩ (by decide +kernel)).2.1

end Reassembler

end LcmBus.Udpm
