import LcmBus.Wire.Books
import LcmBus.Wire.Delivery

/-!
# What a rejected fragment leaves

A feed that is answered `Err` is to leave what is put together as it was.  It does so where nothing is
evicted for it, and where it brings no name to an entry it has no room in.

* `NoTrace`: what a rejected fragment is to leave;
* `Partial.Names`: a fragment that is rejected behind the write of its name;
* `Heeded`: where the fragment is refused before anything is written, or neither of the two happens;
* `noTrace_iff`: a rejected fragment leaves no trace exactly there;
* `Named`: the name of an entry is that of the fragment of index zero it has stored;
* `lifetime_named`: so it is in every run whose rejected fragments are heeded, and `step_delivers_named`: what
  is delivered then has that name.
-/

open Std (ExtTreeMap TransOrd LawfulEqOrd)

namespace LcmBus.Udpm

namespace Partial

/-- The fragment has the name of a message that has none yet, and there is too much of it. -/
def Names (p : Partial) (fragment : Fragment) : Prop :=
  fragment.index = 0 ∧ p.channel = none ∧ fragment.index ∉ p.pieces ∧
    p.arrived.length + fragment.payload.length > p.total.toNat

/-- Of an entry that takes no more of a fragment than its name, only the name may change. -/
theorem take_of_tooMuch {p : Partial} {fragment : Fragment} (h : (p.take fragment).1 = .tooMuch) :
    (fragment.index ∉ p.pieces ∧ p.arrived.length + fragment.payload.length > p.total.toNat) ∧
      (p.take fragment).2 = { p with channel := p.channel.or fragment.channel } := by
  by_cases hindex : fragment.index ∈ p.pieces
  · simp [Partial.take, hindex] at h
  by_cases hmuch : p.arrived.length + fragment.payload.length > p.total.toNat
  · simp only [Partial.take, if_neg hindex, if_pos hmuch]
    exact ⟨⟨hindex, hmuch⟩, trivial⟩
  · simp [Partial.take, hindex, hmuch] at h

/-- The name of an entry stays that of what it has stored, unless a fragment only names it. -/
theorem Holds.take_channel {p : Partial} {heard : List Fragment} (h : p.Holds heard) {f : Fragment}
    (hagrees : ¬ p.disagrees f) (hnamed : p.channel = (storedIn heard).findSome? Fragment.channel)
    (hdecoded : ∀ g ∈ heard ++ [f], g.channel.isSome ↔ g.index = 0) (hnames : ¬ p.Names f) :
    (p.take f).2.channel = (storedIn (heard ++ [f])).findSome? Fragment.channel := by
  have htotal : p.total = f.total := by
    by_contra hne
    exact hagrees (.inl hne)
  have hf := hdecoded f (by simp)
  have hchannel : (p.take f).2.channel = p.channel.or f.channel := by
    simp only [Partial.take]
    split_ifs <;> rfl
  -- A name of its own comes in with a fragment that is stored.
  have hsame : (f.index = 0 → p.channel ≠ none) → p.channel.or f.channel = p.channel := fun hzero => by
    cases hc : p.channel with
    | some channel => rfl
    | none =>
      rw [Option.none_or, Option.eq_none_iff_forall_ne_some]
      intro channel hfed
      exact hzero (hf.1 (by rw [hfed]; rfl)) hc
  rw [hchannel, storedIn_concat, keep]
  split_ifs with hindex hmuch
  · rw [← hnamed]
    refine hsame fun hzero hnone => ?_
    obtain ⟨g, hg, hgindex⟩ := List.mem_map.1 hindex
    have hgnamed := (hdecoded g (List.mem_append_left _ ((storedIn_sublist heard).subset hg))).2
      (hgindex.trans hzero)
    rw [hnamed, List.findSome?_eq_none_iff] at hnone
    rw [hnone g hg] at hgnamed
    cases hgnamed
  · rw [← hnamed]
    refine hsame fun hzero hnone => hnames ⟨hzero, hnone, mt h.mem_pieces.1 hindex, ?_⟩
    rw [h.arrived_eq, htotal]
    exact hmuch
  · rw [List.findSome?_append, List.findSome?_singleton, hnamed]

end Partial

namespace Assembly

/-- The name of an entry is that of a fragment it has stored. -/
def Named (entry : Option Partial) (since : List Fragment) : Prop :=
  ∀ p ∈ entry, p.channel = (storedIn (accepted since)).findSome? Fragment.channel

variable {entry : Option Partial} {since : List Fragment}

/-- The entry behind the write of a fragment that is neither refused nor of another shape. -/
theorem take_named (h : Holds entry since) (hnamed : Named entry since) {f : Fragment}
    (hrefused : f.refused = none) (hagrees : ∀ p ∈ entry, ¬ p.disagrees f)
    (hdecoded : ∀ g ∈ since ++ [f], g.channel.isSome ↔ g.index = 0) {kept : Kept} {p : Partial}
    (hkept : (entry.getD (Partial.opened f 0)).take f = (kept, p))
    (hnames : kept = .tooMuch → ∀ q ∈ entry, ¬ q.Names f) :
    p.channel = (storedIn (accepted (since ++ [f]))).findSome? Fragment.channel := by
  have hopen : (entry.getD (Partial.opened f 0)).Holds (accepted since) ∧
      ¬ (entry.getD (Partial.opened f 0)).disagrees f ∧
      (entry.getD (Partial.opened f 0)).channel =
        (storedIn (accepted since)).findSome? Fragment.channel := by
    cases entry with
    | none =>
      have hsince : since = [] := h
      subst hsince
      exact ⟨.opened hrefused 0, by simp [Partial.disagrees, Partial.opened], rfl⟩
    | some p => exact ⟨h, hagrees p rfl, hnamed p rfl⟩
  have hnames' : ¬ (entry.getD (Partial.opened f 0)).Names f := by
    intro hbad
    have hmuch : kept = .tooMuch := by
      have htake : ((entry.getD (Partial.opened f 0)).take f).1 = .tooMuch := by
        simp [Partial.take, hbad.2.2.1, hbad.2.2.2]
      rwa [hkept] at htake
    cases entry with
    | none =>
      -- An entry that is opened for a fragment has room for it.
      have hbounds := Fragment.bounds_of_accepted hrefused
      have hlong := hbad.2.2.2
      simp only [Option.getD_none, Partial.opened, List.length_nil] at hlong
      omega
    | some q => exact hnames hmuch q rfl hbad
  have hdecoded' : ∀ g ∈ accepted since ++ [f], g.channel.isSome ↔ g.index = 0 := fun g hg => by
    rcases List.mem_append.1 hg with hg | hg
    · exact hdecoded g (List.mem_append_left _ (List.mem_of_mem_filter hg))
    · exact hdecoded g (List.mem_append_right _ hg)
  have htake := hopen.1.take_channel hopen.2.1 hopen.2.2 hdecoded' hnames'
  rw [hkept] at htake
  rw [accepted_concat_of_accepted hrefused]
  exact htake

/-- A step that names no entry it rejects leaves it so. -/
theorem step_named (h : Holds entry since) (hnamed : Named entry since) (sort : UnstableSort)
    {f : Fragment} (hdecoded : ∀ g ∈ since ++ [f], g.channel.isSome ↔ g.index = 0)
    (hheeded : ∀ e, (step sort entry f).1 = .error e →
      f.refused ≠ none ∨ (∃ p ∈ entry, p.disagrees f) ∨ ∀ p ∈ entry, ¬ p.Names f) :
    Named (step sort entry f).2 (behind (step sort entry f).2 (since ++ [f])) := by
  obtain ⟨e, hrefused, hstep⟩ | ⟨-, -, hstep⟩ | ⟨hrefused, hagrees, kept, p, -, -, -, hkept, hstep⟩ :=
    step_cases h sort f
  · rw [hstep]
    cases entry with
    | none => exact nofun
    | some p =>
      rintro _ ⟨⟩
      rw [behind, accepted_concat_of_refused hrefused]
      exact hnamed p rfl
  · rw [hstep]
    exact nofun
  · have hstays : ∀ q ∈ some p, q.channel =
        (storedIn (accepted (since ++ [f]))).findSome? Fragment.channel := by
      rintro _ ⟨⟩
      refine take_named h hnamed hrefused hagrees hdecoded hkept fun hmuch => ?_
      rcases hheeded _ (by rw [hstep, if_pos hmuch]) with hbad | ⟨p, hp, hbad⟩ | hgood
      · exact absurd hrefused hbad
      · exact absurd hbad (hagrees p hp)
      · exact hgood
    rw [hstep]
    split_ifs
    · exact hstays
    · exact hstays
    · unfold finish
      cases p.assemble sort <;> exact nofun

/-- What is delivered has the name of a fragment of index zero that is stored, and the payload of it. -/
theorem step_delivers_named (h : Holds entry since) (hnamed : Named entry since) {sort : UnstableSort}
    {f : Fragment} (hdecoded : ∀ g ∈ since ++ [f], g.channel.isSome ↔ g.index = 0) {frame : Frame}
    (hframe : (step sort entry f).1 = .ok (some frame)) :
    ∃ g ∈ storedIn (accepted (since ++ [f])), g.index = 0 ∧ g.channel = some frame.channel ∧
      (frame.payload.drop g.offset.toNat).take g.payload.length = g.payload := by
  obtain ⟨e, -, hstep⟩ | ⟨-, -, hstep⟩ | ⟨hrefused, hagrees, kept, p, hp, -, -, hkept, hstep⟩ :=
    step_cases h sort f
  · simp [hstep] at hframe
  · simp [hstep] at hframe
  rw [hstep] at hframe
  split_ifs at hframe with hmuch hfew
  · simp at hframe
  have hname := take_named h hnamed hrefused hagrees hdecoded hkept fun hbad => absurd hbad hmuch
  rw [← accepted_concat_of_accepted hrefused] at hp
  have hassemble : p.assemble sort = some frame := by
    unfold finish at hframe
    cases hassemble : p.assemble sort <;> simp_all
  obtain ⟨ordered, hperm, -, hiff⟩ := hp.assemble sort
  obtain ⟨htile, hpayload, hchannel⟩ := (hiff frame).1 hassemble
  rw [hname] at hchannel
  obtain ⟨g, hg, hgname⟩ := List.exists_of_findSome?_eq_some hchannel
  refine ⟨g, hg, ?_, hgname, ?_⟩
  · have hheard : g ∈ since ++ [f] := List.mem_of_mem_filter ((storedIn_sublist _).subset hg)
    exact (hdecoded g hheard).1 (by rw [hgname]; rfl)
  · rw [hpayload]
    exact htile.slice_flatMap Fragment.payload (fun _ _ => rfl) g (hperm.mem_iff.2 hg)

end Assembly

namespace Reassembler

variable {K : Type} [Ord K] [TransOrd K] [DecidableEq K]

/-- Every other message is as it was, and none was evicted, and the message of the fragment is gone or
has the channel, the pieces and the bytes it had. -/
def NoTrace (s t : Reassembler K) (key : Key K) : Prop :=
  (∀ k ≠ key, t.partials[k]? = s.partials[k]?) ∧ t.evicted = s.evicted ∧
    (t.view key = none ∨ t.view key = s.view key)

/-- A feed has to make room at the cost of another message. -/
def Crowded (s : Reassembler K) (fed : Fed K) : Prop :=
  s.overLimits fed.2.payload.length ∧ ∃ k, k ≠ fed.key ∧ k ∈ s.partials

/-- A fragment is refused for itself, or for the shape of its message, or it evicts no other message
and brings no name that it has no room for. -/
def Heeded (s : Reassembler K) (fed : Fed K) : Prop :=
  fed.2.refused ≠ none ∨ (∃ p ∈ s.partials[fed.key]?, p.disagrees fed.2) ∨
    (¬ s.Crowded fed ∧ ∀ p ∈ s.partials[fed.key]?, ¬ p.Names fed.2)

variable {s : Reassembler K}

/-- `make_space` evicts exactly where it is crowded. -/
theorem Books.evicts_iff (h : Books s) (fed : Fed K) :
    (s.gather fed.key fed.2).2.2.evicted ≠ s.evicted ↔ s.Crowded fed := by
  have haged := h.touch fed.key
  have hgather : (s.gather fed.key fed.2).2.2.evicted =
      ((s.touch fed.key).makeSpace fed.key fed.2.payload.length).evicted := rfl
  have hother : (∃ k, (s.touch fed.key).oldest fed.key = some k) ↔ ∃ k, k ≠ fed.key ∧ k ∈ s.partials := by
    constructor
    · rintro ⟨k, hold⟩
      obtain ⟨age, hage⟩ := exists_age_of_oldest hold
      rcases (haged.byAge age k).1 hage with ⟨hkey, -⟩ | ⟨hk, p, hp, -⟩
      · exact absurd hkey (ne_of_oldest hold)
      · exact ⟨k, hk, OrderedMap.mem_of_getElem? hp⟩
    · rintro ⟨k, hk, hmem⟩
      obtain ⟨p, hp⟩ := OrderedMap.mem_iff_exists.1 hmem
      cases hold : (s.touch fed.key).oldest fed.key with
      | none => exact absurd (haged.eq_of_oldest hold hp) hk
      | some k' => exact ⟨k', rfl⟩
  rw [hgather, Crowded, ← hother, makeSpace, makeSpaceLoop]
  have hsame : (s.touch fed.key).overLimits fed.2.payload.length ↔
      s.overLimits fed.2.payload.length := Iff.rfl
  by_cases hover : (s.touch fed.key).overLimits fed.2.payload.length
  · rw [if_pos hover]
    cases hold : (s.touch fed.key).oldest fed.key with
    | none => simp
    | some k =>
      have hle := le_makeSpaceLoop_evicted ((s.touch fed.key).evict k) fed.key fed.2.payload.length
        (s.touch fed.key).byAge.size
      rw [evict_evicted, touch_evicted] at hle
      refine ⟨fun _ => ⟨hsame.1 hover, k, rfl⟩, fun _ => ?_⟩
      dsimp only
      omega
  · rw [if_neg hover]
    refine ⟨fun h => absurd rfl h, fun h => absurd (hsame.2 h.1) hover⟩

/-- A feed that gathers its fragment evicts as the gathering does. -/
theorem feedStep_evicted (sort : UnstableSort) {fed : Fed K} (hrefused : fed.2.refused = none)
    (hagrees : ¬ ∃ p ∈ s.partials[fed.key]?, p.disagrees fed.2) :
    (feedStep sort s fed).2.evicted = (s.gather fed.key fed.2).2.2.evicted := by
  rcases s.feed_state sort fed.1 fed.2 with ⟨hbad, -⟩ | ⟨-, hbad, -⟩ | ⟨-, -, hs | hs⟩
  · exact absurd hrefused hbad
  · exact absurd hbad hagrees
  · exact congrArg evicted hs
  · exact (congrArg evicted hs).trans (remove_evicted _ _)

variable [LawfulEqOrd K]

/-- Where it is rejected, its payload is too much for the entry, which stays, or the entry does not
come together, and goes. -/
theorem view_of_error {sort : UnstableSort} {fed : Fed K} {e : WireError}
    (hrefused : fed.2.refused = none) (hagrees : ¬ ∃ p ∈ s.partials[fed.key]?, p.disagrees fed.2)
    (herror : (feedStep sort s fed).1 = .error e) :
    ((((s.view fed.key).getD (Partial.opened fed.2 0)).take fed.2).1 = .tooMuch ∧
        (feedStep sort s fed).2.view fed.key =
          some (((s.view fed.key).getD (Partial.opened fed.2 0)).take fed.2).2) ∨
      ((((s.view fed.key).getD (Partial.opened fed.2 0)).take fed.2).1 ≠ .tooMuch ∧
        (feedStep sort s fed).2.view fed.key = none) := by
  have hview : ((feedStep sort s fed).1, (feedStep sort s fed).2.view fed.key) =
      Assembly.step sort (s.view fed.key) fed.2 := s.feed_view sort fed.1 fed.2
  have hagrees' : ¬ ∃ p ∈ s.view fed.key, p.disagrees fed.2 := by
    rintro ⟨p, hp, hdis⟩
    obtain ⟨q, hq, rfl⟩ := Option.map_eq_some_iff.1 hp
    exact hagrees ⟨q, hq, hdis⟩
  rw [herror, Assembly.step, hrefused] at hview
  dsimp only at hview
  rw [if_neg hagrees'] at hview
  split_ifs at hview with hmuch hfew
  · exact .inl ⟨hmuch, congrArg Prod.snd hview⟩
  · cases congrArg Prod.fst hview
  · refine .inr ⟨hmuch, (congrArg Prod.snd hview).trans ?_⟩
    unfold Assembly.finish
    split <;> rfl

/-- **A rejected fragment leaves no trace exactly where it is heeded.** -/
theorem Books.noTrace_iff (h : Books s) (sort : UnstableSort) {fed : Fed K}
    (hdecoded : fed.2.channel.isSome ↔ fed.2.index = 0) {e : WireError}
    (herror : (feedStep sort s fed).1 = .error e) :
    NoTrace s (feedStep sort s fed).2 fed.key ↔ s.Heeded fed := by
  obtain ⟨hrefused, hsame⟩ | ⟨-, hagrees, hgone⟩ | ⟨hrefused, hagrees, -⟩ :=
    s.feed_state sort fed.1 fed.2
  · rw [show (feedStep sort s fed).2 = s from hsame]
    exact iff_of_true ⟨fun _ _ => rfl, rfl, .inr rfl⟩ (.inl hrefused)
  · rw [show (feedStep sort s fed).2 = (s.remove fed.key).2 from hgone]
    refine iff_of_true ⟨fun k hk => s.remove_partials_of_ne hk, s.remove_evicted _, .inl ?_⟩
      (.inr (.inl hagrees))
    rw [view, remove_partials_self]
    rfl
  have hevicted := feedStep_evicted sort hrefused hagrees
  have hview := view_of_error hrefused hagrees herror
  have hcrowded := h.evicts_iff fed
  constructor
  · rintro ⟨-, hsame, hown⟩
    refine .inr (.inr ⟨fun hc => hcrowded.2 hc (hevicted.symm.trans hsame), ?_⟩)
    -- A name that is written and not taken back is a trace.
    rintro p hp ⟨hindex, hname, hnew, hmuch⟩
    have hentry : s.view fed.key = some p.ageless := by rw [view, hp]; rfl
    have htake : (p.ageless.take fed.2).1 = .tooMuch := by
      rw [Partial.take_ageless]
      simp [Partial.take, hnew, hmuch]
    rw [hentry] at hview hown
    simp only [Option.getD_some, htake, true_and, ne_eq, not_true, false_and, or_false] at hview
    rw [hview, (Partial.take_of_tooMuch htake).2] at hown
    rcases hown with hnone | hsome
    · cases hnone
    · have hchannel : p.ageless.channel.or fed.2.channel = p.ageless.channel :=
        congrArg Partial.channel (Option.some.inj hsome)
      rw [show p.ageless.channel = none from hname, Option.none_or] at hchannel
      simp [hchannel, hindex] at hdecoded
  · rintro (hbad | hbad | ⟨hroom, hname⟩)
    · exact absurd hrefused hbad
    · exact absurd hbad hagrees
    have hsame : (feedStep sort s fed).2.evicted = s.evicted := by
      rw [hevicted]
      exact not_not.1 (mt hcrowded.1 hroom)
    refine ⟨fun k hk => s.feed_partials_of_ne sort fed.1 fed.2 hk hsame, hsame, ?_⟩
    rcases hview with ⟨hmuch, hview⟩ | ⟨-, hview⟩
    · right
      cases hp : s.partials[fed.key]? with
      | none =>
        -- An entry that is opened for a fragment has room for it.
        have hentry : s.view fed.key = none := by rw [view, hp]; rfl
        rw [hentry] at hmuch
        have hbounds := Fragment.bounds_of_accepted hrefused
        have htooMuch := (Partial.take_of_tooMuch hmuch).1.2
        simp only [Option.getD_none, Partial.opened, List.length_nil] at htooMuch
        omega
      | some p =>
        have hentry : s.view fed.key = some p.ageless := by rw [view, hp]; rfl
        rw [hentry, Option.getD_some] at hmuch hview
        obtain ⟨⟨hnew, hlong⟩, htake⟩ := Partial.take_of_tooMuch hmuch
        rw [hview, htake, hentry]
        have hchannel : p.ageless.channel.or fed.2.channel = p.ageless.channel := by
          cases hc : p.ageless.channel with
          | some channel => rfl
          | none =>
            rw [Option.none_or, Option.eq_none_iff_forall_ne_some]
            intro channel hfed
            refine hname p hp ⟨hdecoded.1 (by rw [hfed]; rfl), hc, hnew, hlong⟩
        rw [hchannel]
    · exact .inl hview

/-! ### Runs -/

/-- Each fragment that is rejected in a run is heeded. -/
def AllHeeded (sort : UnstableSort) (s : Reassembler K) (feds : List (Fed K)) : Prop :=
  ∀ before fed after e, feds = before ++ fed :: after →
    (feedStep sort (Machine.final (feedStep sort) s before) fed).1 = .error e →
    (Machine.final (feedStep sort) s before).Heeded fed

omit [LawfulEqOrd K] in
theorem AllHeeded.tail {sort : UnstableSort} {fed : Fed K} {feds : List (Fed K)}
    (h : AllHeeded sort s (fed :: feds)) : AllHeeded sort (feedStep sort s fed).2 feds :=
  fun before fed' after e hfeds herror =>
    h (fed :: before) fed' after e (by rw [hfeds, List.cons_append]) herror

/-- A feed that is heeded leaves the name of its entry to what is stored. -/
theorem Heeded.step_named {sort : UnstableSort} {fed : Fed K} {since : List Fragment}
    (hholds : Assembly.Holds (s.view fed.key) since) (hnamed : Assembly.Named (s.view fed.key) since)
    (hdecoded : ∀ g ∈ since ++ [fed.2], g.channel.isSome ↔ g.index = 0)
    (hheeded : ∀ e, (feedStep sort s fed).1 = .error e → s.Heeded fed) :
    Assembly.Named ((feedStep sort s fed).2.view fed.key)
      (Assembly.behind ((feedStep sort s fed).2.view fed.key) (since ++ [fed.2])) := by
  have hview : ((feedStep sort s fed).1, (feedStep sort s fed).2.view fed.key) =
      Assembly.step sort (s.view fed.key) fed.2 := s.feed_view sort fed.1 fed.2
  rw [show (feedStep sort s fed).2.view fed.key = (Assembly.step sort (s.view fed.key) fed.2).2 from
    congrArg Prod.snd hview]
  refine Assembly.step_named hholds hnamed sort hdecoded fun e herror => ?_
  have hpartials : ∀ {P : Partial → Prop}, (∀ p, P p.ageless ↔ P p) →
      ((∃ p ∈ s.view fed.key, P p) ↔ ∃ p ∈ s.partials[fed.key]?, P p) := fun {P} hP => by
    rw [view]
    cases s.partials[fed.key]? <;> simp [hP]
  rcases hheeded e ((congrArg Prod.fst hview).trans herror) with hbad | hbad | ⟨-, hgood⟩
  · exact .inl hbad
  · exact .inr (.inl ((hpartials fun _ => Iff.rfl).2 hbad))
  · refine .inr (.inr fun p hp hnames => ?_)
    obtain ⟨q, hq, hqnames⟩ := (hpartials (P := fun p => p.Names fed.2) fun _ => Iff.rfl).1 ⟨p, hp, hnames⟩
    exact hgood q hq hqnames

/-- Behind every run whose rejected fragments are heeded, the name of an entry is that of a fragment it
has stored in its lifetime. -/
theorem lifetime_named {sort : UnstableSort} {key : Key K} {feds : List (Fed K)}
    {since : List Fragment} (hholds : Assembly.Holds (s.view key) since)
    (hnamed : Assembly.Named (s.view key) since)
    (hsince : ∀ g ∈ since, g.channel.isSome ↔ g.index = 0)
    (hdecoded : ∀ f ∈ feds, f.2.channel.isSome ↔ f.2.index = 0) (hheeded : AllHeeded sort s feds) :
    Assembly.Named ((Machine.final (feedStep sort) s feds).view key)
      (lifetime sort key s since feds) := by
  induction feds generalizing s since with
  | nil => exact hnamed
  | cons fed feds ih =>
    have hlifetime := lifetime_holds sort key [fed] hholds
    rw [Machine.final_cons, lifetime]
    rw [Machine.final_cons, Machine.final_nil, lifetime, lifetime] at hlifetime
    have hall : ∀ g ∈ since ++ [fed.2], g.channel.isSome ↔ g.index = 0 := fun g hg => by
      rcases List.mem_append.1 hg with hg | hg
      · exact hsince g hg
      · rw [List.mem_singleton.1 hg]
        exact hdecoded fed (by simp)
    refine ih hlifetime ?_ (fun g hg => ?_) (fun f hf => hdecoded f (by simp [hf])) hheeded.tail
    · rw [behind_view]
      split_ifs with hkey
      · subst hkey
        exact Heeded.step_named hholds hnamed hall fun e => hheeded [] fed feds e rfl
      · rcases s.feed_view_or_none sort fed.1 fed.2 (Ne.symm hkey) with hsame | hnone
        · rw [show (feedStep sort s fed).2.view key = s.view key from hsame]
          cases hentry : s.view key with
          | none => rintro _ ⟨⟩
          | some p => rwa [hentry] at hnamed
        · rw [show (feedStep sort s fed).2.view key = none from hnone]
          rintro _ ⟨⟩
    · have hmem := Assembly.mem_of_mem_behind hg
      split_ifs at hmem
      · exact hall g hmem
      · exact hsince g hmem

/-- **A rejected fragment has no effect on what is put together exactly where it is heeded**: where it is
refused before anything is written, or evicts no other message and does not name an entry that has no
room for it.  Where every fragment of a run that is rejected is heeded, the name of a delivered message
is that of the fragment of index zero whose payload is in it. -/
theorem rejected_has_no_effect (sort : UnstableSort) (feds : List (Fed K)) (fed : Fed K)
    (hdecoded : ∀ f ∈ feds ++ [fed], f.2.channel.isSome ↔ f.2.index = 0) :
    let s := Machine.final (feedStep sort) new feds
    (∀ e, (feedStep sort s fed).1 = .error e →
      (NoTrace s (feedStep sort s fed).2 fed.key ↔ s.Heeded fed)) ∧
    (AllHeeded sort new feds → ∀ frame, (feedStep sort s fed).1 = .ok (some frame) →
      ∃ f ∈ storedIn (accepted (lifetime sort fed.key new [] feds ++ [fed.2])), f.index = 0 ∧
        f.channel = some frame.channel ∧
        (frame.payload.drop f.offset.toNat).take f.payload.length = f.payload) := by
  intro s
  refine ⟨fun e herror => ?_, fun hheeded frame hframe => ?_⟩
  · have hbooks : Books s := Machine.final_invariant (fun _ fed h => h.feed sort fed) feds books_new
    exact hbooks.noTrace_iff sort (hdecoded fed (by simp)) herror
  · have hnew : (new : Reassembler K).view fed.key = none := view_new _
    have hnil : Assembly.Holds ((new : Reassembler K).view fed.key) [] := by rw [hnew]; rfl
    have hnamedNil : Assembly.Named ((new : Reassembler K).view fed.key) [] := by
      rw [hnew]
      exact nofun
    have hholds := lifetime_holds sort fed.key feds hnil
    have hnamed := lifetime_named hnil hnamedNil (by simp) (fun f hf => hdecoded f (by simp [hf])) hheeded
    have hheard : ∀ g ∈ lifetime sort fed.key new [] feds ++ [fed.2],
        g.channel.isSome ↔ g.index = 0 := fun g hg => by
      rcases List.mem_append.1 hg with hg | hg
      · rcases exists_fed_of_mem_lifetime hg with hnone | ⟨f, hf, rfl⟩
        · exact absurd hnone List.not_mem_nil
        · exact hdecoded f (by simp [hf])
      · rw [List.mem_singleton.1 hg]
        exact hdecoded fed (by simp)
    have hstep : (Assembly.step sort (s.view fed.key) fed.2).1 = .ok (some frame) := by
      rw [← hframe]
      exact congrArg Prod.fst (s.feed_view sort fed.1 fed.2).symm
    exact Assembly.step_delivers_named hholds hnamed hheard hstep

/-- A fragment of another shape. -/
theorem rejected_has_no_effect_of_shape :
    let s := Machine.final (feedStep .insertion) (new : Reassembler ℕ) [(0, .ofTwo 7 1 2)]
    NoTrace s (feedStep .insertion s (0, { Fragment.ofTwo 7 1 2 with total := 3 })).2 (0, 7) := by
  intro s
  have herror : (feedStep .insertion s (0, { Fragment.ofTwo 7 1 2 with total := 3 })).1 =
      .error (.inconsistentFragment 7) := by decide +kernel
  have hshape : ∃ p ∈ s.partials[((0, 7) : Key ℕ)]?,
      p.disagrees { Fragment.ofTwo 7 1 2 with total := 3 } := by decide +kernel
  exact ((rejected_has_no_effect .insertion [(0, .ofTwo 7 1 2)]
    (0, { Fragment.ofTwo 7 1 2 with total := 3 }) (by decide)).1 _ herror).2 (.inr (.inl hshape))

/-- A fragment of index zero with one byte too much for the message it names. -/
def forged : Fragment :=
  { Fragment.ofTwo 7 0 9 with channel := some "B", payload := [9, 9] }

/-- It is rejected, and the message that is delivered behind it has its name. -/
theorem delivers_a_rejected_name :
    Machine.answers (feedStep .insertion) (new : Reassembler ℕ)
        [(0, .ofTwo 7 1 2), (0, forged), (0, .ofTwo 7 0 1)] =
      [.ok none, .error (.inconsistentFragment 7), .ok (some ⟨"B", [1, 2]⟩)] ∧
    ¬ NoTrace (feedStep .insertion (new : Reassembler ℕ) (0, .ofTwo 7 1 2)).2
      (feedStep .insertion (feedStep .insertion (new : Reassembler ℕ) (0, .ofTwo 7 1 2)).2
        (0, forged)).2 (0, 7) := by
  refine ⟨by decide +kernel, ?_⟩
  set s := (feedStep .insertion (new : Reassembler ℕ) (0, .ofTwo 7 1 2)).2 with hs
  have hbefore : (s.view (0, 7)).bind Partial.channel = none := by decide +kernel
  have hbehind : ((feedStep .insertion s (0, forged)).2.view (0, 7)).bind Partial.channel =
      some "B" := by decide +kernel
  rintro ⟨-, -, hnone | hsame⟩
  · rw [hnone] at hbehind
    cases hbehind
  · rw [hsame, hbefore] at hbehind
    cases hbehind

end Reassembler

end LcmBus.Udpm
