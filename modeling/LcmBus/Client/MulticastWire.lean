import LcmBus.Client.Multicast

/-!
# The datagrams of a publish

What a multicast publisher hands to its socket, publish by publish, however its threads interleave.

* `State.handed`: the datagrams that a publish handed over, in order;
* `Hands`: they are the first of those that `encode` makes of its message, and all of them where the
  publish is through;
* `State.laidOut`: the message of a number, and its datagrams;
* `mem_wire`: what is on the wire is a datagram of the message of its number.
-/

namespace LcmBus.Multicast

open Udpm

/-- What an encoder writes of a layout. -/
def datagramsOf (f : Fragments) : List Bytes := f.toList.map fun d => d.1.asRef ++ d.2

theorem encode_of_fragments {sequence : UInt32} {frame : Frame} {shortMax : ℕ} {f : Fragments}
    (h : fragments sequence frame shortMax = .ok f) :
    encode sequence frame shortMax = .ok (datagramsOf f) := by
  rw [encode, h]
  rfl

theorem datagramsOf_eq (f : Fragments) :
    datagramsOf { f with index := 0 } =
      (List.range f.count).map fun i => (f.item i).1.asRef ++ (f.item i).2 := by
  rw [datagramsOf, Fragments.toList_eq _ rfl, List.map_map]
  rfl

/-- What `handed` is to the publish, at each stage of it. -/
def Publish.Hands (shortMax : ℕ) (handed : List Bytes) (p : Publish) : Prop :=
  match p.stage with
  | .numbered => handed = []
  | .refused e => handed = [] ∧ encode p.sequence p.frame shortMax = .error e
  | .sending left => fragments p.sequence p.frame shortMax = .ok { left with index := 0 } ∧
      handed = (datagramsOf { left with index := 0 }).take left.index
  | .sent => encode p.sequence p.frame shortMax = .ok handed
  | .failed => ∃ datagrams, encode p.sequence p.frame shortMax = .ok datagrams ∧ handed <+: datagrams

namespace State

/-- The datagrams that the publish at a place handed to the socket. -/
def handed (s : State) (k : ℕ) : List Bytes := (s.wire.filter (·.1 = k)).map Prod.snd

/-- The messages in the order of their numbers. -/
def frames (s : State) : List Frame := s.published.map Publish.frame

/-- The message of a number and its datagrams, where the encoder does not refuse it. -/
def laidOut (s : State) (sequence : UInt32) : Option (Frame × List Bytes) :=
  s.frames[sequence.toNat]?.bind fun frame =>
    match encode sequence frame s.shortMax with
    | .ok datagrams => some (frame, datagrams)
    | .error _ => none

theorem laidOut_eq_some {s : State} {sequence : UInt32} {frame : Frame} {datagrams : List Bytes} :
    s.laidOut sequence = some (frame, datagrams) ↔
      s.frames[sequence.toNat]? = some frame ∧ encode sequence frame s.shortMax = .ok datagrams := by
  unfold laidOut
  rw [Option.bind_eq_some_iff]
  constructor
  · rintro ⟨frame', hframe, h⟩
    split at h <;> cases h
    exact ⟨hframe, ‹_›⟩
  · rintro ⟨hframe, hencode⟩
    exact ⟨frame, hframe, by rw [hencode]⟩

end State

/-- What every publish handed over is the first of its datagrams. -/
def Hands (s : State) : Prop :=
  ∀ (k : ℕ) (p : Publish), s.published[k]? = some p → p.Hands s.shortMax (s.handed k)

variable {s t : State} {e : Event}

theorem hands_new (shortMax : ℕ) : Hands (.new shortMax) := fun k p hp => by cases hp

/-- A publish goes to another stage, and hands over so much meanwhile. -/
theorem Hands.setStage (h : Hands s) {k : ℕ} {p : Publish} (stage : Stage) (more : List Bytes)
    (hnew : Publish.Hands s.shortMax (s.handed k ++ more) { p with stage }) :
    Hands { s.setStage k p stage with wire := s.wire ++ more.map (k, ·) } := by
  intro j q hq
  have hhanded : (s.wire ++ more.map (k, ·)).filter (·.1 = j) =
      s.wire.filter (·.1 = j) ++ if k = j then more.map (k, ·) else [] := by
    rw [List.filter_append, List.filter_map]
    split_ifs with hkj <;> simp [Function.comp_def, hkj]
  unfold State.handed
  rw [hhanded, List.map_append]
  rw [State.setStage, List.getElem?_set] at hq
  split_ifs at hq ⊢ with hkj hlt
  · cases hq
    subst hkj
    rw [List.map_map, show Prod.snd ∘ (k, ·) = (id : Bytes → Bytes) from rfl, List.map_id]
    exact hnew
  · rw [List.map_nil, List.append_nil]
    exact h j q hq

/-- **No step of a publisher hands over any other datagram.** -/
theorem Hands.step (h : Hands s) (hsound : Sound s) (hstep : step s e = some t) : Hands t := by
  have hquiet : ∀ (k : ℕ) (p : Publish) (stage : Stage),
      Publish.Hands s.shortMax (s.handed k) { p with stage } → Hands (s.setStage k p stage) :=
    fun k p stage hnew => by
      have hset := h.setStage (k := k) (p := p) stage [] (by rwa [List.append_nil])
      rwa [List.map_nil, List.append_nil] at hset
  cases steps_of_step hstep with
  | tested | closed => exact h
  | number i frame tested =>
    intro k p hp
    rw [List.getElem?_append, List.getElem?_singleton] at hp
    split_ifs at hp with hk hlast
    · exact h k p hp
    · cases hp
      -- No datagram has a place that no publish had yet.
      have hnone : s.wire.filter (·.1 = k) = [] := List.filter_eq_nil_iff.2 fun d hd => by
        have hplace := (hsound.wire d.1 d.2 hd).1
        simp only [decide_eq_true_eq]
        omega
      show List.map Prod.snd (s.wire.filter (·.1 = k)) = []
      rw [hnone, List.map_nil]
  | refused k p error hp hstage hlayout =>
    have hhanded := h k p hp
    rw [Publish.Hands, hstage] at hhanded
    refine hquiet k p _ ⟨hhanded, ?_⟩
    show encode p.sequence p.frame s.shortMax = .error error
    rw [encode, hlayout]
    rfl
  | laidOut k p f hp hstage hlayout =>
    have hhanded := h k p hp
    rw [Publish.Hands, hstage] at hhanded
    obtain ⟨hzero, -, -⟩ := number_item hlayout
    have hstart : { f with index := 0 } = f := by rw [← hzero]
    refine hquiet k p _ ⟨hstart.symm ▸ hlayout, ?_⟩
    rw [hhanded, hzero, List.take_zero]
  | through k taken p f hp hstage hend =>
    have hhanded := h k p hp
    rw [Publish.Hands, hstage] at hhanded
    refine hquiet k p _ ?_
    show encode p.sequence p.frame s.shortMax = .ok (s.handed k)
    rw [encode_of_fragments hhanded.1, hhanded.2, List.take_of_length_le]
    rwa [datagramsOf_eq, List.length_map, List.length_range]
  | handed k taken p f hp hstage hmore =>
    have hhanded := h k p hp
    rw [Publish.Hands, hstage] at hhanded
    obtain ⟨hlayout, hfirst⟩ := hhanded
    have hnext : s.handed k ++ [(f.item f.index).1.asRef ++ (f.item f.index).2] =
        (datagramsOf { f with index := 0 }).take (f.index + 1) := by
      rw [hfirst, datagramsOf_eq, ← List.map_take, ← List.map_take, List.take_range, List.take_range,
        Nat.min_eq_left hmore.le, Nat.min_eq_left hmore, List.range_succ, List.map_append]
      rfl
    refine h.setStage _ [(f.item f.index).1.asRef ++ (f.item f.index).2] ?_
    rw [hnext]
    cases taken with
    | true => exact ⟨hlayout, rfl⟩
    | false => exact ⟨_, encode_of_fragments hlayout, List.take_prefix _ _⟩

/-- What a publish handed over are datagrams of its message. -/
theorem Hands.exists_encode (h : Hands s) {k : ℕ} {p : Publish} (hp : s.published[k]? = some p)
    {bytes : Bytes} (hbytes : bytes ∈ s.handed k) :
    ∃ datagrams, encode p.sequence p.frame s.shortMax = .ok datagrams ∧ bytes ∈ datagrams := by
  have hhanded := h k p hp
  unfold Publish.Hands at hhanded
  split at hhanded
  · rw [hhanded] at hbytes
    cases hbytes
  · rw [hhanded.1] at hbytes
    cases hbytes
  · obtain ⟨hlayout, hfirst⟩ := hhanded
    rw [hfirst] at hbytes
    exact ⟨_, encode_of_fragments hlayout, List.mem_of_mem_take hbytes⟩
  · exact ⟨_, hhanded, hbytes⟩
  · obtain ⟨datagrams, hencode, hprefix⟩ := hhanded
    exact ⟨datagrams, hencode, hprefix.subset hbytes⟩

/-! ### By number -/

/-- The place of a number, as long as no number is taken twice. -/
theorem toNat_ofNat_of_lt {s : State} (hfew : s.published.length ≤ UInt32.size) {k : ℕ}
    (hk : k < s.published.length) : (UInt32.ofNat k).toNat = k :=
  UInt32.toNat_ofNat_of_lt' (hk.trans_le hfew)

/-- **What is on the wire is a datagram of the message of its number.** -/
theorem mem_wire (hsound : Sound s) (hhands : Hands s) (hfew : s.published.length ≤ UInt32.size) {k : ℕ}
    {bytes : Bytes} (hbytes : (k, bytes) ∈ s.wire) :
    ∃ frame datagrams, s.laidOut (UInt32.ofNat k) = some (frame, datagrams) ∧ bytes ∈ datagrams := by
  obtain ⟨hk, -⟩ := hsound.wire k bytes hbytes
  have hp := List.getElem?_eq_getElem hk
  have hhanded : bytes ∈ s.handed k :=
    List.mem_map.2 ⟨(k, bytes), List.mem_filter.2 ⟨hbytes, by simp⟩, rfl⟩
  obtain ⟨datagrams, hencode, hmem⟩ := hhands.exists_encode hp hhanded
  rw [(hsound.publish k _ hp).numbered] at hencode
  refine ⟨_, datagrams, State.laidOut_eq_some.2 ⟨?_, hencode⟩, hmem⟩
  rw [toNat_ofNat_of_lt hfew hk, State.frames, List.getElem?_map, hp]
  rfl

/-- A publish that is through handed over every datagram of its message, in order and once. -/
theorem handed_of_sent (hsound : Sound s) (hhands : Hands s) (hfew : s.published.length ≤ UInt32.size)
    {k : ℕ} {p : Publish} (hp : s.published[k]? = some p) (hstage : p.stage = .sent) :
    s.laidOut (UInt32.ofNat k) = some (p.frame, s.handed k) := by
  have hk := (List.getElem?_eq_some_iff.1 hp).1
  have hhanded := hhands k p hp
  rw [Publish.Hands, hstage] at hhanded
  rw [(hsound.publish k p hp).numbered] at hhanded
  refine State.laidOut_eq_some.2 ⟨?_, hhanded⟩
  rw [toNat_ofNat_of_lt hfew hk, State.frames, List.getElem?_map, hp]
  rfl

/-- A step takes at most one more number, and takes nothing off the wire. -/
theorem frames_step (hstep : step s e = some t) :
    t.shortMax = s.shortMax ∧ s.wire <+: t.wire ∧
      (t.frames = s.frames ∨ ∃ frame, t.frames = s.frames ++ [frame]) := by
  have hset : ∀ (k : ℕ) (p : Publish) (stage : Stage), s.published[k]? = some p →
      (s.setStage k p stage).frames = s.frames := fun k p stage hp => by
    obtain ⟨hk, hget⟩ := List.getElem?_eq_some_iff.1 hp
    have hlt : k < s.frames.length := by rwa [State.frames, List.length_map]
    have hframe : s.frames[k] = p.frame := by simp [State.frames, hget]
    show (s.published.set k { p with stage }).map Publish.frame = s.frames
    rw [List.map_set, show ({ p with stage } : Publish).frame = p.frame from rfl, ← hframe]
    exact List.set_getElem_self hlt
  cases steps_of_step hstep with
  | tested | closed => exact ⟨rfl, List.prefix_rfl, .inl rfl⟩
  | number i frame tested => exact ⟨rfl, List.prefix_rfl, .inr ⟨frame, List.map_append⟩⟩
  | refused k p error hp hstage hlayout => exact ⟨rfl, List.prefix_rfl, .inl (hset k p _ hp)⟩
  | laidOut k p f hp hstage hlayout => exact ⟨rfl, List.prefix_rfl, .inl (hset k p _ hp)⟩
  | through k taken p f hp hstage hend => exact ⟨rfl, List.prefix_rfl, .inl (hset k p _ hp)⟩
  | handed k taken p f hp hstage hmore =>
    exact ⟨rfl, List.prefix_append _ _, .inl (hset k p _ hp)⟩

/-- A message that is laid out stays laid out as it is. -/
theorem laidOut_step (hstep : step s e = some t) {sequence : UInt32} {laid : Frame × List Bytes}
    (h : s.laidOut sequence = some laid) : t.laidOut sequence = some laid := by
  obtain ⟨hlimit, -, hframes⟩ := frames_step hstep
  obtain ⟨hframe, hencode⟩ := State.laidOut_eq_some.1 h
  refine State.laidOut_eq_some.2 ⟨?_, hlimit.symm ▸ hencode⟩
  rcases hframes with hframes | ⟨frame, hframes⟩
  · rwa [hframes]
  · rw [hframes, List.getElem?_append_left (List.getElem?_eq_some_iff.1 hframe).1]
    exact hframe

/-- A step takes one number at most, and gives none back. -/
theorem length_published_step (hstep : step s e = some t) :
    s.published.length ≤ t.published.length ∧ t.published.length ≤ s.published.length + 1 := by
  obtain ⟨-, -, hframes⟩ := frames_step hstep
  have hlength : ∀ u : State, u.frames.length = u.published.length := fun u => List.length_map _
  rw [← hlength, ← hlength]
  rcases hframes with hframes | ⟨frame, hframes⟩
  · rw [hframes]
    exact ⟨le_rfl, Nat.le_succ _⟩
  · rw [hframes, List.length_append]
    exact ⟨Nat.le_add_right _ _, le_rfl⟩

end LcmBus.Multicast
