import LcmBus.Wire.Complete
import LcmBus.Wire.LogFormat
import LcmBus.Wire.RoundTrip
import LcmBus.Wire.TcpqFormat
import LcmBus.Wire.UdpmGrammar

/-!
# A udpm bus, from datagrams to messages

`MulticastReceiver` of `bus.rs`, and what becomes of a message that this crate gives back: a bridge or a
recorder can write it again.

* `onDatagram`: a datagram is decoded, put back together with others and filtered;
* `Frame.Sendable`: the messages within the limits of all three formats, which are those delivered
  (`sendable_of_answer`);
* `Udpm.Carries`, `Tcpq.Carries`, `Log.Carries`: a format takes the message and reads it back;
* `gives_back_what_it_can_publish`: the three decoders against the three encoders.
-/

open Std (TransOrd LawfulEqOrd)

namespace LcmBus

/-- A message off a udpm bus, and what its datagrams said about it. -/
structure Received where
  frame : Frame
  /-- The number its sender gave it. -/
  sequence : UInt32
  /-- One datagram held it, or many did. -/
  reassembled : Bool
  deriving DecidableEq, Repr

/-- A udpm bus.  The filter says which channels it gives back. -/
structure MulticastReceiver (K : Type) [Ord K] where
  reassembler : Udpm.Reassembler K
  filter : String → Bool

/-- `Everything`, as a filter. -/
def everything : String → Bool := fun _ => true

namespace MulticastReceiver

variable {K : Type} [Ord K] [TransOrd K]

def new (filter : String → Bool) : MulticastReceiver K := { reassembler := .new, filter }

variable [DecidableEq K]

/-- The message that `data` completes, if the filter wants its channel. -/
def onDatagram (sort : Udpm.UnstableSort) (r : MulticastReceiver K) (source : K) (data : Bytes) :
    Except WireError (Option Received) × MulticastReceiver K :=
  match Udpm.decode data with
  | .error e => (.error e, r)
  | .ok (.whole sequence frame) =>
    (.ok (if r.filter frame.channel then some { frame, sequence, reassembled := false } else none), r)
  | .ok (.fragment fragment) =>
    let (answer, reassembler) := r.reassembler.feed sort source fragment
    let r := { r with reassembler }
    match answer with
    | .error e => (.error e, r)
    | .ok none => (.ok none, r)
    | .ok (some frame) =>
      (.ok (if r.filter frame.channel
        then some { frame, sequence := fragment.sequence, reassembled := true } else none), r)

/-- `on_datagram` as the step of an answering machine. -/
def step (sort : Udpm.UnstableSort) (r : MulticastReceiver K) (datagram : K × Bytes) :
    Except WireError (Option Received) × MulticastReceiver K :=
  r.onDatagram sort datagram.1 datagram.2

end MulticastReceiver

/-! ### What is delivered keeps to the limits -/

/-- The limits that a message keeps to, for any of the three formats. -/
def Frame.Sendable (frame : Frame) : Prop :=
  ValidChannel frame.channel maxChannelLen ∧ frame.payload.length ≤ maxMessageLen

namespace Udpm

theorem Fragment.WellFormed.valid_of_channel {f : Fragment} (h : f.WellFormed) :
    ∀ name ∈ f.channel, ValidChannel name maxChannelLen := by
  intro name hname
  have hchannel := h.2
  rw [Option.mem_def.1 hname] at hchannel
  exact hchannel.2

/-- An entry of a message within the limit, with a valid name where it has one. -/
def Partial.WithinLimits (p : Partial) : Prop :=
  p.total.toNat ≤ maxMessageLen ∧ ∀ name ∈ p.channel, ValidChannel name maxChannelLen

namespace Partial.WithinLimits

variable {p : Partial}

theorem opened {f : Fragment} (h : f.WellFormed) (now : ℕ) : (opened f now).WithinLimits :=
  ⟨h.1, by rintro _ ⟨⟩⟩

theorem take (h : p.WithinLimits) {f : Fragment} (hf : f.WellFormed) : (p.take f).2.WithinLimits := by
  have hchannel : ∀ name ∈ p.channel.or f.channel, ValidChannel name maxChannelLen := by
    intro name hname
    rcases Option.or_eq_some_iff.1 hname with hown | ⟨-, hgiven⟩
    · exact h.2 name hown
    · exact hf.valid_of_channel name hgiven
  simp only [Partial.take]
  split_ifs <;> exact ⟨h.1, hchannel⟩

/-- What is put together has the name of its entry, and its length. -/
theorem assemble (h : p.WithinLimits) {sort : UnstableSort} {frame : Frame}
    (hframe : p.assemble sort = some frame) : frame.Sendable := by
  unfold Partial.assemble at hframe
  split_ifs at hframe with hbytes
  split at hframe
  · cases hframe
  split_ifs at hframe with hlength
  split at hframe
  · cases hframe
  · rename_i channel hchannel
    cases hframe
    exact ⟨h.2 channel hchannel, (not_not.1 hlength).trans_le h.1⟩

end Partial.WithinLimits

/-- A feed gives a message within the limits, and leaves an entry within them. -/
theorem Assembly.step_withinLimits {entry : Option Partial} (h : ∀ p ∈ entry, p.WithinLimits)
    {f : Fragment} (hf : f.WellFormed) (sort : UnstableSort) :
    (∀ frame, (Assembly.step sort entry f).1 = .ok (some frame) → frame.Sendable) ∧
      ∀ p ∈ (Assembly.step sort entry f).2, p.WithinLimits := by
  have htaken : ((entry.getD (Partial.opened f 0)).take f).2.WithinLimits := by
    cases entry with
    | none => exact (Partial.WithinLimits.opened hf 0).take hf
    | some p => exact (h p rfl).take hf
  rw [Assembly.step]
  cases f.refused with
  | some e => exact ⟨by rintro _ ⟨⟩, h⟩
  | none =>
    dsimp only
    split_ifs
    · exact ⟨by rintro _ ⟨⟩, by rintro _ ⟨⟩⟩
    · exact ⟨by rintro _ ⟨⟩, by rintro _ ⟨⟩; exact htaken⟩
    · exact ⟨by rintro _ ⟨⟩, by rintro _ ⟨⟩; exact htaken⟩
    · rw [Assembly.finish]
      cases hassemble : ((entry.getD (Partial.opened f 0)).take f).2.assemble sort with
      | none => exact ⟨by rintro _ ⟨⟩, by rintro _ ⟨⟩⟩
      | some frame =>
        exact ⟨by rintro _ ⟨⟩; exact htaken.assemble hassemble, by rintro _ ⟨⟩⟩

end Udpm

namespace MulticastReceiver

variable {K : Type} [Ord K] [TransOrd K] [LawfulEqOrd K]

/-- Every entry that is held is within the limits. -/
def WithinLimits (r : MulticastReceiver K) : Prop :=
  ∀ k, ∀ p ∈ r.reassembler.view k, p.WithinLimits

omit [LawfulEqOrd K] in
theorem withinLimits_new (filter : String → Bool) : (new filter : MulticastReceiver K).WithinLimits := by
  intro k p hp
  rw [new, Udpm.Reassembler.view_new] at hp
  cases hp

variable [DecidableEq K]

/-- The bytes of the buffer that a datagram is received into. -/
def datagramMax : ℕ := 65536

/-- **A datagram gives a message within the limits**, if any, and leaves entries within them. -/
theorem WithinLimits.onDatagram {r : MulticastReceiver K} (h : r.WithinLimits)
    (sort : Udpm.UnstableSort) (source : K) {data : Bytes} (hdata : data.length ≤ datagramMax) :
    (∀ received, (r.onDatagram sort source data).1 = .ok (some received) → received.frame.Sendable) ∧
      (r.onDatagram sort source data).2.WithinLimits := by
  unfold MulticastReceiver.onDatagram
  cases hdecode : Udpm.decode data with
  | error e => exact ⟨by rintro _ ⟨⟩, h⟩
  | ok datagram =>
    cases datagram with
    | whole sequence frame =>
      refine ⟨fun received hreceived => ?_, h⟩
      obtain ⟨hvalid, rfl⟩ := Udpm.decode_eq_whole_iff.1 hdecode
      rw [Udpm.length_wholeBytes, Udpm.spanOf] at hdata
      have hmax : datagramMax ≤ maxMessageLen := by decide
      dsimp only at hreceived
      split_ifs at hreceived <;> cases hreceived
      exact ⟨hvalid, by dsimp only; omega⟩
    | fragment fragment =>
      obtain ⟨hwell, -⟩ := Udpm.decode_eq_fragment_iff.1 hdecode
      obtain ⟨hframe, hentry⟩ := Udpm.Assembly.step_withinLimits (h (source, fragment.sequence)) hwell sort
      have hviews := Udpm.Reassembler.feed_views h hentry
      rw [← r.reassembler.feed_view sort source fragment] at hframe
      dsimp only at hframe ⊢
      generalize r.reassembler.feed sort source fragment = fed at hframe hviews
      obtain ⟨_ | _ | frame, reassembler⟩ := fed
      · exact ⟨by rintro _ ⟨⟩, hviews⟩
      · exact ⟨by rintro _ ⟨⟩, hviews⟩
      · refine ⟨fun received hreceived => ?_, hviews⟩
        dsimp only at hreceived
        split_ifs at hreceived <;> cases hreceived
        exact hframe frame rfl

/-- Whatever datagrams come, what is delivered may be sent. -/
theorem sendable_of_answer (filter : String → Bool) (sort : Udpm.UnstableSort)
    {datagrams : List (K × Bytes)} (hdatagrams : ∀ d ∈ datagrams, d.2.length ≤ datagramMax)
    {received : Received}
    (h : .ok (some received) ∈ Machine.answers (step sort) (new filter) datagrams) :
    received.frame.Sendable :=
  Machine.answers_invariant (P := WithinLimits)
    (Q := fun answer => ∀ received, answer = .ok (some received) → received.frame.Sendable)
    (fun _ d hr hd => hr.onDatagram sort d.1 hd) datagrams (withinLimits_new filter) hdatagrams _ h
    received rfl

end MulticastReceiver

/-! ### A cut message, in order -/

namespace Udpm

variable {sequence : UInt32} {frame : Frame} {fragments : List Fragment}

/-- A message cut into fragments is a family of them. -/
theorem Cut.exists_family (h : Cut sequence frame fragments) (hsome : fragments ≠ []) :
    ∃ total count, Family sequence total count fragments ∧ total.toNat = frame.payload.length ∧
      count.toNat = fragments.length := by
  obtain ⟨f, hf⟩ := List.exists_mem_of_ne_nil fragments hsome
  have htotal := h.total_eq f hf
  have hcount := h.count_eq f hf
  have hbounds := Fragment.bounds_of_accepted (h.refused_eq f hf)
  have hpos := List.length_pos_of_mem hf
  have hfew : f.count.toNat ≤ max f.total.toNat 1 := by
    have haccepted := h.refused_eq f hf
    rw [Fragment.refused] at haccepted
    split_ifs at haccepted
    omega
  refine ⟨f.total, f.count, ⟨by omega, by omega, by omega, fun g hg => ⟨h.sequence_eq g hg, ?_, ?_⟩,
    ?_, ⟨fragments, .refl _, htotal.symm ▸ h.tile⟩, fun g hg hzero => ?_⟩, htotal, hcount⟩
  · rw [← UInt32.toNat_inj, htotal, h.total_eq g hg]
  · rw [← UInt16.toNat_inj, hcount, h.count_eq g hg]
  · rw [h.index_eq, hcount]
  · rw [h.channel_eq g hg, if_pos hzero]
    rfl

variable {K : Type} [Ord K] [TransOrd K] [LawfulEqOrd K] [DecidableEq K]

/-- **A fresh reassembler answers the fragments in order with nothing, and the last one with the
message.** -/
theorem Cut.answers_eq (h : Cut sequence frame fragments) (hsome : fragments ≠ [])
    (sort : UnstableSort) (source : K) :
    Machine.answers (Reassembler.feedStep sort) (Reassembler.new : Reassembler K)
        (fragments.map fun f => (source, f)) =
      List.replicate (fragments.length - 1) (.ok none) ++ [.ok (some frame)] := by
  obtain ⟨total, count, hfamily, htotal, hcount⟩ := h.exists_family hsome
  obtain ⟨p, hp, hptotal, hanswers⟩ := hfamily.answers_eq sort source
  have hassemble := h.assemble_eq sort hp (List.Subset.refl _) (List.Subset.refl _) hsome
    (hptotal ▸ htotal)
  rw [hanswers, hcount, Assembly.finish, hassemble]

end Udpm

namespace MulticastReceiver

variable {K : Type} [Ord K] [TransOrd K] [DecidableEq K]

/-- A receiver of all channels answers datagrams that are fragments of one message as its reassembler
does. -/
theorem answers_of_fragments (sort : Udpm.UnstableSort) (source : K) {sequence : UInt32}
    {datagram : ℕ → Bytes} {fragment : ℕ → Udpm.Fragment} {indexes : List ℕ}
    (h : ∀ i ∈ indexes, Udpm.decode (datagram i) = .ok (.fragment (fragment i)) ∧
      (fragment i).sequence = sequence) (s : Udpm.Reassembler K) :
    Machine.answers (step sort) ⟨s, everything⟩ (indexes.map fun i => (source, datagram i)) =
      (Machine.answers (Udpm.Reassembler.feedStep sort) s
        (indexes.map fun i => (source, fragment i))).map
          (Except.map (Option.map fun frame => { frame, sequence, reassembled := true })) := by
  induction indexes generalizing s with
  | nil => rfl
  | cons i indexes ih =>
    obtain ⟨hdecode, hsequence⟩ := h i (List.mem_cons_self ..)
    have hstep : step sort ⟨s, everything⟩ (source, datagram i) =
        ((s.feed sort source (fragment i)).1.map
          (Option.map fun frame => { frame, sequence, reassembled := true }),
          ⟨(s.feed sort source (fragment i)).2, everything⟩) := by
      rw [step, onDatagram]
      simp only [hdecode, hsequence]
      generalize s.feed sort source (fragment i) = fed
      obtain ⟨_ | _ | frame, reassembler⟩ := fed <;> rfl
    rw [List.map_cons, Machine.answers_cons, hstep,
      ih fun j hj => h j (List.mem_cons_of_mem _ hj)]
    rfl

end MulticastReceiver

/-! ### The three encoders -/

/-- The message goes out in datagrams, and a receiver that has heard nothing else gives it back with the
last of them. -/
def Udpm.Carries (shortMax : ℕ) (frame : Frame) : Prop :=
  ∀ sequence, ∃ f, fragments sequence frame shortMax = .ok f ∧
    ∀ (K : Type) [Ord K] [TransOrd K] [LawfulEqOrd K] [DecidableEq K] (sort : UnstableSort)
      (source : K),
      Machine.answers (MulticastReceiver.step sort) (.new everything)
          (f.toList.map fun d => (source, d.1.asRef ++ d.2)) =
        List.replicate (f.toList.length - 1) (.ok none) ++
          [.ok (some { frame, sequence, reassembled := decide (f.toList.length ≠ 1) })]

/-- The message is written for a relay, and read back on either side of one. -/
def Tcpq.Carries (frame : Frame) : Prop :=
  ∃ bytes, publish frame = .ok bytes ∧ decode bytes = .ok (.item frame bytes.length) ∧
    decodeRequest bytes = .ok (.item (.publish frame) bytes.length)

/-- The message is written to a log, under any number and at any time, and read back. -/
def Log.Carries (frame : Frame) : Prop :=
  ∀ number timestamp, ∃ bytes, encode { number, timestamp, frame } = .ok bytes ∧
    decode bytes = .ok (.item { number, timestamp, frame } bytes.length)

namespace Frame.Sendable

variable {frame : Frame} (h : frame.Sendable)
include h

/-- The fragments of a message within the limits can be counted, for the largest datagrams. -/
theorem exists_fragments (sequence : UInt32) :
    ∃ f, Udpm.fragments sequence frame BusUrl.maxShortMax = .ok f := by
  have hchannel := h.1.2.2
  have hpayload := h.2
  have hmax : maxMessageLen = 2 ^ 28 := rfl
  have hname : maxChannelLen = 63 := rfl
  have hgap : Udpm.headerGap = 12 := rfl
  have hshort : BusUrl.maxShortMax = 65499 := rfl
  refine (Udpm.exists_fragments_iff h.1 h.2 sequence _).2 (.inr ⟨?_, ?_⟩)
  · rw [Udpm.minimumOf]
    omega
  · rw [Udpm.divCeil, Udpm.spanOf, hshort, hgap]
    omega

theorem udpm_carries : Udpm.Carries BusUrl.maxShortMax frame := by
  intro sequence
  obtain ⟨f, hf⟩ := h.exists_fragments sequence
  refine ⟨f, hf, fun K _ _ _ _ sort source => ?_⟩
  obtain ⟨hvalid, rfl | ⟨hseveral, rfl, hchannel, hpayload⟩⟩ := Udpm.fragments_cases hf
  · have hdecode : Udpm.decode (((Udpm.wholeLayout sequence frame).item 0).1.asRef ++
        ((Udpm.wholeLayout sequence frame).item 0).2) = .ok (.whole sequence frame) :=
      Udpm.decode_whole hvalid
    rw [Udpm.toList_wholeLayout, List.map_singleton, Machine.answers_cons, MulticastReceiver.step,
      MulticastReceiver.onDatagram]
    simp only [hdecode]
    rfl
  · have hcut := hseveral.cut hpayload
    have hpos := hseveral.two_le
    have hsome : (List.range f.count).map (f.fragmentAt frame.channel) ≠ [] := by
      rw [← List.length_pos_iff, List.length_map, List.length_range]
      omega
    have hanswers := hcut.answers_eq hsome sort source
    have hreceiver := MulticastReceiver.answers_of_fragments sort source
      (fun i hi => ⟨hseveral.decode_item hchannel.symm hvalid (List.mem_range.1 hi), rfl⟩)
      Udpm.Reassembler.new
    rw [List.map_map, List.length_map, List.length_range] at hanswers
    rw [Udpm.Fragments.length_toList hseveral.index_zero, Udpm.Fragments.toList_eq f hseveral.index_zero,
      List.map_map]
    refine hreceiver.trans ?_
    rw [show (fun i => (source, f.fragmentAt frame.channel i)) =
      (fun g => (source, g)) ∘ f.fragmentAt frame.channel from rfl, hanswers, List.map_append,
      List.map_replicate, decide_eq_true hseveral.count_ne_one]
    rfl

theorem tcpq_carries : Tcpq.Carries frame := by
  have hpublish := Tcpq.publish_eq_ok_iff.2 ⟨h.1, h.2, rfl⟩
  have hread := Tcpq.readers_of_publish hpublish []
  rw [List.append_nil] at hread
  exact ⟨_, hpublish, hread⟩

end Frame.Sendable

/-- An event that the log encoder takes is read back, where nothing is behind it. -/
theorem Log.decode_of_encode {event : Event} {bytes : Bytes} (h : encode event = .ok bytes) :
    decode bytes = .ok (.item event bytes.length) := by
  obtain ⟨e, hevent, rfl⟩ := exists_entry_of_encode h
  have hdecode := decode_bytes_append hevent []
  rwa [List.append_nil, if_pos (.inl (by decide))] at hdecode

theorem Frame.Sendable.log_carries {frame : Frame} (h : frame.Sendable) : Log.Carries frame := by
  intro number timestamp
  have hlonger : maxChannelLen ≤ channelMax := by decide
  have hencode : Log.encode ⟨number, timestamp, frame⟩ = .ok _ :=
    Log.encode_eq_ok_iff.2 ⟨⟨h.1.1, h.1.2.1, h.1.2.2.trans hlonger⟩, h.2, rfl⟩
  exact ⟨_, hencode, Log.decode_of_encode hencode⟩

/-- All three formats take the message, and each one gives it back. -/
def Frame.Carried (frame : Frame) : Prop :=
  Tcpq.Carries frame ∧ Log.Carries frame ∧ Udpm.Carries 65499 frame

theorem Frame.Sendable.carried {frame : Frame} (h : frame.Sendable) : frame.Carried :=
  ⟨h.tcpq_carries, h.log_carries, h.udpm_carries⟩

/-- **A message that is given back is one that can be published.**  What a receiver of a udpm bus, a
client of a relay or a relay reads is taken by all three formats and read back; an event of a log is
taken by the log, and by the other two exactly where its name is no longer than theirs. -/
theorem gives_back_what_it_can_publish :
    (∀ (K : Type) [Ord K] [TransOrd K] [LawfulEqOrd K] [DecidableEq K] (filter : String → Bool)
      (sort : Udpm.UnstableSort) (datagrams : List (K × Bytes)),
      (∀ d ∈ datagrams, d.2.length ≤ 65536) → ∀ received,
        .ok (some received) ∈ Machine.answers (MulticastReceiver.step sort) (.new filter) datagrams →
        received.frame.Carried) ∧
    (∀ data frame used, Tcpq.decode data = .ok (.item frame used) ∨
      Tcpq.decodeRequest data = .ok (.item (.publish frame) used) → frame.Carried) ∧
    ∀ data event used, Log.decode data = .ok (.item event used) →
      (∃ bytes, Log.encode event = .ok bytes ∧ Log.decode bytes = .ok (.item event bytes.length)) ∧
      ((∃ bytes, Tcpq.publish event.frame = .ok bytes) ↔ (asBytes event.frame.channel).length ≤ 63) ∧
      (∀ sequence, (∃ f, Udpm.fragments sequence event.frame 65499 = .ok f) ↔
        (asBytes event.frame.channel).length ≤ 63) ∧
      ((asBytes event.frame.channel).length ≤ 63 → event.frame.Carried) := by
  refine ⟨fun K _ _ _ _ filter sort datagrams hdatagrams received h =>
    (MulticastReceiver.sendable_of_answer filter sort hdatagrams h).carried, fun data frame used h => ?_,
    fun data event used h => ?_⟩
  · obtain ⟨-, hpublish⟩ := h.elim Tcpq.publish_of_decode Tcpq.publish_of_decodeRequest
    obtain ⟨hvalid, hpayload, -⟩ := Tcpq.publish_eq_ok_iff.1 hpublish
    exact Frame.Sendable.carried ⟨hvalid, hpayload⟩
  · have hencode := (Log.encode_of_decode h).2
    obtain ⟨hvalid, hpayload, -⟩ := Log.encode_eq_ok_iff.1 hencode
    have hsendable (hlong : (asBytes event.frame.channel).length ≤ 63) : event.frame.Sendable :=
      ⟨⟨hvalid.1, hvalid.2.1, hlong⟩, hpayload⟩
    refine ⟨⟨_, hencode, Log.decode_of_encode hencode⟩, ⟨?_, fun hlong => ?_⟩, fun sequence =>
      ⟨?_, fun hlong => (hsendable hlong).exists_fragments sequence⟩, fun hlong => (hsendable hlong).carried⟩
    · rintro ⟨bytes, hpublish⟩
      exact (Tcpq.publish_eq_ok_iff.1 hpublish).1.2.2
    · exact ⟨_, Tcpq.publish_eq_ok_iff.2 ⟨(hsendable hlong).1, hpayload, rfl⟩⟩
    · rintro ⟨f, hf⟩
      exact (Udpm.sendable_of_ok hf).1.2.2

end LcmBus
