import LcmBus.Bus.Receiver
import LcmBus.Bus.Subscriptions
import LcmBus.Client.Multicast
import LcmBus.Client.StreamReader
import LcmBus.Lib.Collect

/-!
# The reader of a udpm bus

`udpm_reader` of `client/multicast.rs`, and what becomes in it of the datagrams of one message.

* `udpmReader`: what one turn of its loop makes of what `recv_from` gives back;
* `Entered`: the datagrams of a message that wait in a reassembler, as a part of those it came to;
* `Follows.take` and `Follows.other`: one more of them comes, or a datagram of another message.
-/

open Std (TransOrd LawfulEqOrd)

namespace LcmBus.Multicast

open Udpm

/-- What `recv_from` gives back. -/
inductive Receipt (K : Type)
  | datagram (source : K) (data : Bytes)
  /-- `is_timeout`. -/
  | timedOut
  /-- `is_transient`. -/
  | transient
  | failed
  deriving DecidableEq, Repr

/-- What a handler hears of a message, where its origin is `Origin::Multicast`. -/
structure Delivery (K : Type) where
  frame : Frame
  peer : K
  sequence : UInt32
  deriving DecidableEq, Repr

/-- What the handler heard, and the counters. -/
structure Heard (K : Type) where
  counters : Counters
  inFlight : ℕ
  evicted : ℕ
  delivered : List (Delivery K)
  deriving DecidableEq, Repr

/-- A reader between two turns. -/
structure Reader (K : Type) [Ord K] where
  reassembler : Reassembler K
  heard : Heard K

variable {K : Type} [Ord K] [TransOrd K]

def Reader.new : Reader K := ⟨.new, ⟨.zero, 0, 0, []⟩⟩

/-- One bad sender on a shared bus must not stop the receiver. -/
def onAnswer (heard : Heard K) (source : K) : Except WireError (Option Received) → Heard K
  | .ok (some received) => { heard with
      counters := { heard.counters with delivered := heard.counters.delivered + 1 }
      delivered := heard.delivered ++ [⟨received.frame, source, received.sequence⟩] }
  | .ok none => heard
  | .error _ => { heard with
      counters := { heard.counters with discarded := heard.counters.discarded + 1 } }

variable [DecidableEq K] {Regex : Type}

/-- One turn of `udpm_reader`.  A datagram is cut to the buffer it is received into. -/
def udpmReader (sort : UnstableSort) (engine : Engine Regex) (subscriptions : Subscriptions Regex)
    (s : Reader K) : Receipt K → Reader K × Option Stop
  | .timedOut => (s, none)
  | .transient =>
    let counters := { s.heard.counters with discarded := s.heard.counters.discarded + 1 }
    ({ s with heard := { s.heard with counters } }, none)
  | .failed => (s, some (.io .other))
  | .datagram source data =>
    let counters := { s.heard.counters with received := s.heard.counters.received + 1 }
    let receiver : MulticastReceiver K := ⟨s.reassembler, subscriptions.selects engine⟩
    let (answer, receiver) := receiver.onDatagram sort source (data.take MulticastReceiver.datagramMax)
    let heard := onAnswer { s.heard with counters } source answer
    (⟨receiver.reassembler, { heard with
      inFlight := receiver.reassembler.inFlight
      evicted := receiver.reassembler.evicted }⟩, none)

/-! ### The datagrams of a message -/

/-- What a message comes to: a datagram, or fragments of it. -/
inductive Layout (sequence : UInt32) (frame : Frame) : List Bytes → Prop
  | whole (bytes : Bytes) (hdecode : decode bytes = .ok (.whole sequence frame)) :
      Layout sequence frame [bytes]
  | several (fragments : List Fragment) (hcut : Udpm.Cut sequence frame fragments)
      (hsome : fragments ≠ []) (hwell : ∀ f ∈ fragments, f.WellFormed) :
      Layout sequence frame (fragments.map Fragment.bytes)

/-- Of such datagrams, those that wait in the entry of the message. -/
inductive Entered (sequence : UInt32) (frame : Frame) : List Bytes → Option Partial → List Bytes → Prop
  | whole (bytes : Bytes) (hdecode : decode bytes = .ok (.whole sequence frame)) :
      Entered sequence frame [bytes] none []
  | several (fragments since : List Fragment) (entry : Option Partial)
      (hcut : Udpm.Cut sequence frame fragments) (hwell : ∀ f ∈ fragments, f.WellFormed)
      (harrived : Udpm.Cut.Arrived frame fragments entry since) :
      Entered sequence frame (fragments.map Fragment.bytes) entry (since.map Fragment.bytes)

theorem layout_of_encode {sequence : UInt32} {frame : Frame} {shortMax : ℕ} {datagrams : List Bytes}
    (h : encode sequence frame shortMax = .ok datagrams) : Layout sequence frame datagrams := by
  obtain ⟨f, hf, rfl⟩ := encode_eq_ok h
  obtain ⟨hvalid, rfl | ⟨hseveral, rfl, hchannel, hpayload⟩⟩ := fragments_cases hf
  · rw [Fragments.toList_eq _ rfl]
    exact .whole _ (decode_whole hvalid)
  · have hitem : ∀ i ∈ List.range f.count, (f.fragmentAt frame.channel i).WellFormed ∧
        (f.item i).1.asRef ++ (f.item i).2 = (f.fragmentAt frame.channel i).bytes := fun i hi =>
      decode_eq_fragment_iff.1 (hseveral.decode_item hchannel.symm hvalid (List.mem_range.1 hi))
    have hdatagrams : f.toList.map (fun x => x.1.asRef ++ x.2) =
        ((List.range f.count).map (f.fragmentAt frame.channel)).map Fragment.bytes := by
      rw [Fragments.toList_eq f hseveral.index_zero, List.map_map, List.map_map]
      exact List.map_congr_left fun i hi => (hitem i hi).2
    rw [hdatagrams]
    refine .several _ (hseveral.cut hpayload) ?_ fun g hg => ?_
    · have hcount := hseveral.two_le
      rw [← List.length_pos_iff, List.length_map, List.length_range]
      omega
    · obtain ⟨i, hi, rfl⟩ := List.mem_map.1 hg
      exact (hitem i hi).1

namespace Layout

variable {sequence : UInt32} {frame : Frame} {datagrams : List Bytes}

theorem ne_nil (h : Layout sequence frame datagrams) : datagrams ≠ [] := by
  cases h with
  | whole bytes hdecode => exact List.cons_ne_nil _ _
  | several fragments hcut hsome hwell => simpa using hsome

/-- Nothing of it waits yet. -/
theorem entered (h : Layout sequence frame datagrams) : Entered sequence frame datagrams none [] := by
  cases h with
  | whole bytes hdecode => exact .whole bytes hdecode
  | several fragments hcut hsome hwell => exact .several fragments [] none hcut hwell Udpm.Cut.arrived_none

/-- The datagrams of a message are of its number. -/
theorem numberOf_eq (h : Layout sequence frame datagrams) {data : Bytes} (hdata : data ∈ datagrams) :
    numberOf data = some sequence := by
  unfold numberOf
  cases h with
  | whole bytes hdecode => rw [List.mem_singleton.1 hdata, hdecode]
  | several fragments hcut hsome hwell =>
    obtain ⟨f, hf, rfl⟩ := List.mem_map.1 hdata
    rw [decode_eq_fragment_iff.2 ⟨hwell f hf, rfl⟩]
    exact congrArg some (hcut.sequence_eq f hf)

end Layout

/-- A datagram goes into the buffer whole, for every limit that a URL may give. -/
theorem length_le_of_encode {sequence : UInt32} {frame : Frame} {shortMax : ℕ} {datagrams : List Bytes}
    (h : encode sequence frame shortMax = .ok datagrams) (hmax : shortMax ≤ BusUrl.maxShortMax)
    {data : Bytes} (hdata : data ∈ datagrams) : data.length ≤ MulticastReceiver.datagramMax := by
  obtain ⟨f, hf, rfl⟩ := encode_eq_ok h
  obtain ⟨d, hd, rfl⟩ := List.mem_map.1 hdata
  have hroom : BusUrl.maxShortMax + 8 ≤ MulticastReceiver.datagramMax := by decide
  have hlength : datagramLength d ≤ shortMax + 8 := by
    rcases layout_of_ok hf with ⟨hfits, rfl⟩ | ⟨-, hmin, rfl, hseveral⟩
    · obtain ⟨i, hi, rfl⟩ := (Fragments.mem_toList rfl).1 hd
      obtain rfl : i = 0 := Nat.lt_one_iff.1 hi
      rw [datagramLength_whole (sendable_of_ok hf).1]
      omega
    · obtain ⟨i, hi, rfl⟩ := (Fragments.mem_toList hseveral.index_zero).1 hd
      exact (datagramLength_several hmin hseveral hi).1
  rw [List.length_append]
  exact (hlength.trans (Nat.add_le_add_right hmax 8)).trans hroom

/-- A well-formed fragment is read off its datagram, so two are one where their datagrams are. -/
theorem bytes_subset_iff {fragments some : List Fragment} (hwell : ∀ f ∈ fragments, f.WellFormed)
    (hsome : ∀ f ∈ some, f.WellFormed) :
    fragments.map Fragment.bytes ⊆ some.map Fragment.bytes ↔ fragments ⊆ some := by
  constructor
  · intro hsub f hf
    obtain ⟨g, hg, hbytes⟩ := List.mem_map.1 (hsub (List.mem_map_of_mem hf))
    have hread := decode_eq_fragment_iff.2 ⟨hwell f hf, rfl⟩
    rw [← hbytes, decode_eq_fragment_iff.2 ⟨hsome g hg, rfl⟩] at hread
    cases hread
    exact hg
  · exact List.map_subset _

/-! ### A datagram comes -/

/-- A fragment goes to the reassembler, and the filter sees what that gives back. -/
theorem onDatagram_fragment (sort : UnstableSort) (r : MulticastReceiver K) (source : K) {data : Bytes}
    {f : Fragment} (hdecode : decode data = .ok (.fragment f)) :
    r.onDatagram sort source data =
      ((r.reassembler.feed sort source f).1.map fun found =>
        (found.filter fun frame => r.filter frame.channel).map fun frame => ⟨frame, f.sequence, true⟩,
      ⟨(r.reassembler.feed sort source f).2, r.filter⟩) := by
  unfold MulticastReceiver.onDatagram
  simp only [hdecode]
  generalize r.reassembler.feed sort source f = fed
  obtain ⟨_ | _ | frame, reassembler⟩ := fed
  · rfl
  · rfl
  · cases hfilter : r.filter frame.channel <;> simp [Except.map, hfilter]

/-- A datagram that is no fragment leaves the reassembler as it was. -/
theorem onDatagram_reassembler (sort : UnstableSort) (r : MulticastReceiver K) (source : K)
    {data : Bytes} (hdecode : ∀ f, decode data ≠ .ok (.fragment f)) :
    (r.onDatagram sort source data).2 = r := by
  unfold MulticastReceiver.onDatagram
  split
  · rfl
  · rfl
  · exact absurd ‹_› (hdecode _)

variable {sequence : UInt32} {frame : Frame} {datagrams waiting : List Bytes} {entry : Option Partial}

theorem le_onDatagram_evicted (sort : UnstableSort) (r : MulticastReceiver K) (source : K)
    (data : Bytes) :
    r.reassembler.evicted ≤ (r.onDatagram sort source data).2.reassembler.evicted := by
  by_cases hfragment : ∃ f, decode data = .ok (.fragment f)
  · obtain ⟨f, hdecode⟩ := hfragment
    rw [onDatagram_fragment sort r source hdecode]
    exact r.reassembler.le_feed_evicted sort source f
  · rw [onDatagram_reassembler sort r source fun f hf => hfragment ⟨f, hf⟩]

variable [LawfulEqOrd K]

/-- A datagram of another message leaves the entry of this one, or evicts it. -/
theorem onDatagram_view_of_ne (sort : UnstableSort) (r : MulticastReceiver K) (source : K)
    {data : Bytes} {key : Key K}
    (hkey : ∀ f, decode data = .ok (.fragment f) → key ≠ (source, f.sequence)) :
    let next := (r.onDatagram sort source data).2.reassembler
    (next.view key = r.reassembler.view key ∨ next.view key = none) ∧
      (next.evicted = r.reassembler.evicted → next.view key = r.reassembler.view key) := by
  intro next
  by_cases hfragment : ∃ f, decode data = .ok (.fragment f)
  · obtain ⟨f, hdecode⟩ := hfragment
    have hnext : next = (r.reassembler.feed sort source f).2 :=
      congrArg (·.2.reassembler) (onDatagram_fragment sort r source hdecode)
    rw [hnext]
    exact ⟨r.reassembler.feed_view_or_none sort source f (hkey f hdecode),
      r.reassembler.feed_view_of_ne sort source f (hkey f hdecode)⟩
  · have hnext : next = r.reassembler := congrArg (·.reassembler)
      (onDatagram_reassembler sort r source fun f hf => hfragment ⟨f, hf⟩)
    rw [hnext]
    exact ⟨.inl rfl, fun _ => rfl⟩

namespace Entered

/-- **One of the datagrams of a message comes**: the message is given back with the last of them, and
one that is not the last waits with the others. -/
theorem take {r : MulticastReceiver K} {source : K}
    (h : Entered sequence frame datagrams (r.reassembler.view (source, sequence)) waiting)
    (sort : UnstableSort) {data : Bytes} (hdata : data ∈ datagrams) :
    (∃ reassembled, (r.onDatagram sort source data).1 =
      .ok (if datagrams ⊆ waiting ++ [data] ∧ r.filter frame.channel
        then some ⟨frame, sequence, reassembled⟩ else none)) ∧
    Entered sequence frame datagrams
      ((r.onDatagram sort source data).2.reassembler.view (source, sequence))
      (if datagrams ⊆ waiting ++ [data] then [] else waiting ++ [data]) := by
  generalize hentry : r.reassembler.view (source, sequence) = entry at h
  cases h with
  | whole bytes hdecode =>
    obtain rfl := List.mem_singleton.1 hdata
    simp only [MulticastReceiver.onDatagram, hdecode, hentry, List.nil_append, List.Subset.refl,
      if_true, true_and]
    exact ⟨⟨false, rfl⟩, .whole data hdecode⟩
  | several fragments since entry hcut hwell harrived =>
    obtain ⟨f, hf, rfl⟩ := List.mem_map.1 hdata
    have hsub : since ++ [f] ⊆ fragments :=
      List.append_subset.2 ⟨harrived.subset, List.cons_subset.2 ⟨hf, List.nil_subset _⟩⟩
    have hall : fragments.map Fragment.bytes ⊆ since.map Fragment.bytes ++ [f.bytes] ↔
        fragments ⊆ since ++ [f] := by
      rw [← List.map_singleton, ← List.map_append]
      exact bytes_subset_iff hwell fun g hg => hwell g (hsub hg)
    obtain ⟨hanswer, hnext⟩ := hcut.step_arrival sort harrived hf
    have hview := r.reassembler.feed_view sort source f
    rw [hcut.sequence_eq f hf, hentry] at hview
    rw [← hview] at hanswer hnext
    rw [onDatagram_fragment sort r source (decode_eq_fragment_iff.2 ⟨hwell f hf, rfl⟩), hanswer,
      hcut.sequence_eq f hf]
    simp only [hall]
    refine ⟨⟨true, ?_⟩, ?_⟩
    · by_cases hthere : fragments ⊆ since ++ [f] <;> cases hfilter : r.filter frame.channel <;>
        simp [Except.map, hthere, hfilter]
    · split_ifs at hnext ⊢ with hthere
      · exact .several fragments [] _ hcut hwell hnext
      · rw [← List.map_singleton, ← List.map_append]
        exact .several fragments (since ++ [f]) _ hcut hwell hnext

/-- What waits is lost. -/
theorem lose (h : Entered sequence frame datagrams entry waiting) :
    Entered sequence frame datagrams none [] := by
  cases h with
  | whole bytes hdecode => exact .whole bytes hdecode
  | several fragments since entry hcut hwell harrived =>
    exact .several fragments [] none hcut hwell Udpm.Cut.arrived_none

end Entered

/-! ### One message at a reader -/

/-- What the handler hears of an answer. -/
def deliveriesOf (source : K) : Except WireError (Option Received) → List (Delivery K)
  | .ok (some received) => [⟨received.frame, source, received.sequence⟩]
  | .ok none | .error _ => []

/-- What the handler heard of a message. -/
def Reader.heardOf (r : Reader K) (source : K) (sequence : UInt32) : List (Delivery K) :=
  r.heard.delivered.filter fun d => d.peer = source ∧ d.sequence = sequence

omit [LawfulEqOrd K] in
/-- The handler hears what the receiver answers to a datagram, and no more. -/
theorem udpmReader_datagram (sort : UnstableSort) (engine : Engine Regex)
    (subscriptions : Subscriptions Regex) (r : Reader K) (source : K) (data : Bytes) :
    let out := MulticastReceiver.onDatagram sort ⟨r.reassembler, subscriptions.selects engine⟩ source
      (data.take MulticastReceiver.datagramMax)
    let next := (udpmReader sort engine subscriptions r (.datagram source data)).1
    next.reassembler = out.2.reassembler ∧
      next.heard.delivered = r.heard.delivered ++ deliveriesOf source out.1 := by
  intro out next
  have hdelivered : ∀ (heard : Heard K) answer,
      (onAnswer heard source answer).delivered = heard.delivered ++ deliveriesOf source answer := by
    rintro heard (_ | _ | received)
    · exact (List.append_nil _).symm
    · exact (List.append_nil _).symm
    · rfl
  exact ⟨rfl, hdelivered _ _⟩

omit [LawfulEqOrd K] in
/-- A message that is given back has the number of its last datagram. -/
theorem numberOf_of_received {sort : UnstableSort} {r : MulticastReceiver K} {source : K} {data : Bytes}
    {received : Received} (h : (r.onDatagram sort source data).1 = .ok (some received)) :
    numberOf data = some received.sequence := by
  unfold MulticastReceiver.onDatagram at h
  unfold numberOf
  cases hdecode : decode data with
  | error e => rw [hdecode] at h; cases h
  | ok datagram =>
    rw [hdecode] at h
    cases datagram with
    | whole sequence frame =>
      dsimp only at h ⊢
      split_ifs at h <;> cases h
      rfl
    | fragment fragment =>
      dsimp only at h ⊢
      generalize r.reassembler.feed sort source fragment = fed at h
      obtain ⟨_ | _ | frame, reassembler⟩ := fed <;> dsimp only at h
      · cases h
      · cases h
      · split_ifs at h <;> cases h
        rfl

/-- What came of the datagrams of a message, where `came` are those that came from its sender, and
`selected` says that the rules selected its channel each time. -/
structure Follows (source : K) (sequence : UInt32) (frame : Frame) (datagrams came : List Bytes)
    (selected : Prop) (r : Reader K) (given : ℕ) (waiting : List Bytes) : Prop where
  entered : Entered sequence frame datagrams (r.reassembler.view (source, sequence)) waiting
  collected : Collect.Collected datagrams came given waiting
  kept : r.reassembler.evicted = 0 → Collect.Kept datagrams came given waiting
  heard : ∃ n ≤ given, r.heardOf source sequence = List.replicate n ⟨frame, source, sequence⟩ ∧
    (selected → n = given)

namespace Follows

variable {source : K} {came : List Bytes} {selected : Prop} {r : Reader K} {given : ℕ}
  (engine : Engine Regex) (subscriptions : Subscriptions Regex)

/-- **One of the datagrams of the message comes.** -/
theorem take (h : Follows source sequence frame datagrams came selected r given waiting)
    (sort : UnstableSort) {data : Bytes} (hdata : data ∈ datagrams)
    (hlength : data.length ≤ MulticastReceiver.datagramMax) :
    Follows source sequence frame datagrams (came ++ [data])
      (selected ∧ subscriptions.selects engine frame.channel = true)
      (udpmReader sort engine subscriptions r (.datagram source data)).1
      (if datagrams ⊆ waiting ++ [data] then given + 1 else given)
      (if datagrams ⊆ waiting ++ [data] then [] else waiting ++ [data]) := by
  obtain ⟨hreassembler, hdelivered⟩ := udpmReader_datagram sort engine subscriptions r source data
  rw [List.take_of_length_le hlength] at hreassembler hdelivered
  have hentered : Entered sequence frame datagrams
      ((⟨r.reassembler, subscriptions.selects engine⟩ : MulticastReceiver K).reassembler.view
        (source, sequence)) waiting := h.entered
  obtain ⟨⟨reassembled, hanswer⟩, hnext⟩ := hentered.take sort hdata
  have hevicted := le_onDatagram_evicted sort ⟨r.reassembler, subscriptions.selects engine⟩ source data
  rw [← hreassembler] at hnext hevicted
  rw [hanswer] at hdelivered
  refine ⟨hnext, h.collected.take hdata, fun hnone => ?_, ?_⟩
  · exact (h.kept (Nat.le_zero.1 (hnone ▸ hevicted))).take data
  · obtain ⟨n, hn, hheard, hselected⟩ := h.heard
    rw [Reader.heardOf, hdelivered, List.filter_append, ← Reader.heardOf, hheard]
    by_cases hall : datagrams ⊆ waiting ++ [data]
    · rw [if_pos hall]
      cases hselects : subscriptions.selects engine frame.channel with
      | true =>
        refine ⟨n + 1, Nat.succ_le_succ hn, ?_, fun hboth => by rw [hselected hboth.1]⟩
        rw [if_pos ⟨hall, hselects⟩, List.replicate_succ']
        simp [deliveriesOf]
      | false =>
        refine ⟨n, hn.trans (Nat.le_succ given), ?_, fun hboth => absurd hboth.2 (by simp)⟩
        rw [if_neg fun hboth => Bool.false_ne_true (hselects.symm.trans hboth.2)]
        exact List.append_nil _
    · rw [if_neg hall, if_neg fun hboth => hall hboth.1]
      exact ⟨n, hn, List.append_nil _, fun hboth => hselected hboth.1⟩

/-- What comes has nothing to do with the message. -/
theorem other (h : Follows source sequence frame datagrams came selected r given waiting)
    (sort : UnstableSort) (receipt : Receipt K)
    (hother : ∀ peer data, receipt = .datagram peer data → peer ≠ source ∨
      numberOf (data.take MulticastReceiver.datagramMax) ≠ some sequence) :
    ∃ waiting, Follows source sequence frame datagrams came selected
      (udpmReader sort engine subscriptions r receipt).1 given waiting := by
  cases receipt with
  | timedOut | transient | failed => exact ⟨waiting, h.entered, h.collected, h.kept, h.heard⟩
  | datagram peer data =>
    have hne := hother peer data rfl
    obtain ⟨hreassembler, hdelivered⟩ := udpmReader_datagram sort engine subscriptions r peer data
    generalize data.take MulticastReceiver.datagramMax = taken at hne hreassembler hdelivered
    have hkey : ∀ f, decode taken = .ok (.fragment f) → (source, sequence) ≠ (peer, f.sequence) := by
      rintro f hdecode heq
      cases heq
      exact hne.elim (fun hne => hne rfl) fun hne => hne (by rw [numberOf, hdecode])
    obtain ⟨hview, hsame⟩ := onDatagram_view_of_ne sort
      ⟨r.reassembler, subscriptions.selects engine⟩ peer hkey
    have hevicted := le_onDatagram_evicted sort ⟨r.reassembler, subscriptions.selects engine⟩ peer taken
    rw [← hreassembler] at hview hsame hevicted
    have hheard : (udpmReader sort engine subscriptions r (.datagram peer data)).1.heardOf source
        sequence = r.heardOf source sequence := by
      rw [Reader.heardOf, hdelivered, List.filter_append, ← Reader.heardOf,
        List.filter_eq_nil_iff.2, List.append_nil]
      rintro d hd
      cases hanswer : (MulticastReceiver.onDatagram sort ⟨r.reassembler, subscriptions.selects engine⟩
        peer taken).1 with
      | error e => rw [hanswer] at hd; cases hd
      | ok found =>
        rw [hanswer] at hd
        cases found with
        | none => cases hd
        | some received =>
          rw [List.mem_singleton.1 hd, decide_eq_true_eq]
          rintro ⟨rfl, rfl⟩
          exact hne.elim (fun hne => hne rfl) fun hne => hne (numberOf_of_received hanswer)
    have hboth := hheard.symm ▸ h.heard
    by_cases hlost : (udpmReader sort engine subscriptions r (.datagram peer data)).1.reassembler.view
        (source, sequence) = r.reassembler.view (source, sequence)
    · exact ⟨waiting, hlost.symm ▸ h.entered, h.collected,
        fun hnone => h.kept (Nat.le_zero.1 (hnone ▸ hevicted)), hboth⟩
    · have hgone := hview.resolve_left hlost
      refine ⟨[], hgone.symm ▸ h.entered.lose, h.collected.lose, fun hnone => ?_, hboth⟩
      exact absurd (hsame (le_antisymm (hnone.trans_le (Nat.zero_le _)) hevicted)) hlost

omit [LawfulEqOrd K] in
/-- A datagram of another message comes. -/
theorem beside (h : Follows source sequence frame datagrams came selected r given waiting) {data : Bytes}
    (hdata : data ∉ datagrams) :
    Follows source sequence frame datagrams (came ++ [data]) selected r given waiting :=
  ⟨h.entered, h.collected.other data, fun hnone => (h.kept hnone).other hdata, h.heard⟩

omit [LawfulEqOrd K] in
theorem mono (h : Follows source sequence frame datagrams came selected r given waiting)
    {selected' : Prop} (himp : selected' → selected) :
    Follows source sequence frame datagrams came selected' r given waiting := by
  obtain ⟨n, hn, hheard, hselected⟩ := h.heard
  exact ⟨h.entered, h.collected, h.kept, n, hn, hheard, fun hsel => hselected (himp hsel)⟩

/-- **A datagram of a message is no error.** -/
theorem discarded_eq (h : Follows source sequence frame datagrams came selected r given waiting)
    (sort : UnstableSort) {data : Bytes} (hdata : data ∈ datagrams)
    (hlength : data.length ≤ MulticastReceiver.datagramMax) :
    (udpmReader sort engine subscriptions r (.datagram source data)).1.heard.counters.discarded =
      r.heard.counters.discarded := by
  have hentered : Entered sequence frame datagrams
      ((⟨r.reassembler, subscriptions.selects engine⟩ : MulticastReceiver K).reassembler.view
        (source, sequence)) waiting := h.entered
  obtain ⟨⟨reassembled, hanswer⟩, -⟩ := hentered.take sort hdata
  unfold udpmReader
  dsimp only
  rw [List.take_of_length_le hlength, hanswer]
  split_ifs <;> rfl

end Follows

omit [LawfulEqOrd K] in
/-- A turn has one error at most. -/
theorem discarded_le (sort : UnstableSort) (engine : Engine Regex) (subscriptions : Subscriptions Regex)
    (r : Reader K) (receipt : Receipt K) :
    (udpmReader sort engine subscriptions r receipt).1.heard.counters.discarded ≤
      r.heard.counters.discarded + 1 := by
  unfold udpmReader
  cases receipt with
  | timedOut | failed => exact Nat.le_succ _
  | transient => exact le_rfl
  | datagram source data =>
    dsimp only
    generalize MulticastReceiver.onDatagram sort ⟨r.reassembler, subscriptions.selects engine⟩ source
      (data.take MulticastReceiver.datagramMax) = out
    obtain ⟨_ | _ | received, receiver⟩ := out
    · exact le_rfl
    · exact Nat.le_succ _
    · exact Nat.le_succ _

/-- The counters of the client say what the reassembler holds. -/
def Reader.Mirrors (r : Reader K) : Prop :=
  r.heard.inFlight = r.reassembler.inFlight ∧ r.heard.evicted = r.reassembler.evicted

omit [LawfulEqOrd K] in
theorem Reader.Mirrors.turn {r : Reader K} (h : r.Mirrors) (sort : UnstableSort) (engine : Engine Regex)
    (subscriptions : Subscriptions Regex) (receipt : Receipt K) :
    (udpmReader sort engine subscriptions r receipt).1.Mirrors := by
  unfold udpmReader
  cases receipt with
  | timedOut | failed | transient => exact h
  | datagram source data => exact ⟨rfl, rfl⟩

end LcmBus.Multicast
