import LcmBus.Lib.Run
import LcmBus.Wire.UdpmSizes

/-!
# The numbers of a multicast publisher

`Client::write` of `client/mod.rs`, on `udpm://`.  Any number of threads publish: each tests whether
the client is open, takes a number off the counter, lays its message out, and hands the datagrams to
the socket one by one.  A step is one of these, so the threads interleave as they like.

* `State` and `step`: the counter, the publishes in the order in which they took their numbers, and
  the datagrams that were handed to the socket;
* `Sound`: what holds in every run: a publish has the number of its place, and so have its datagrams;
* `InSequence`: what a receiver relies on, that a number missing is a message lost;
* `in_sequence_iff`: that is so as long as no message is refused by `fragments`.
-/

namespace LcmBus.Multicast

open Udpm Machine

/-! ### The publishes of a client -/

/-- Where a publish that took its number is. -/
inductive Stage
  | numbered
  /-- With the datagrams that are left. -/
  | sending (left : Fragments)
  | sent
  /-- `fragments` refused the message. -/
  | refused (error : WireError)
  /-- The socket did. -/
  | failed
  deriving DecidableEq, Repr

structure Publish where
  frame : Frame
  sequence : UInt32
  stage : Stage
  deriving DecidableEq, Repr

structure State where
  writable : Bool
  /-- The `AtomicU32`. -/
  sequence : UInt32
  shortMax : ℕ
  /-- The messages of publishes that found the client open and took no number yet. -/
  tested : List Frame
  /-- The publishes in the order in which they took their numbers. -/
  published : List Publish
  /-- The datagrams that were handed to the socket, each with the place of its publish. -/
  wire : List (ℕ × Bytes)
  deriving DecidableEq, Repr

def State.new (shortMax : ℕ) : State where
  writable := true
  sequence := 0
  shortMax := shortMax
  tested := []
  published := []
  wire := []

inductive Event
  /-- A call of `publish`, up to its test of `writable`. -/
  | publish (frame : Frame)
  /-- `fetch_add`, by one of those that came through the test. -/
  | number (i : ℕ)
  /-- `fragments`, by the publish that is at this place. -/
  | encode (k : ℕ)
  /-- One turn of the loop over the datagrams, where `taken` says what the socket answers. -/
  | hand (k : ℕ) (taken : Bool)
  | close
  deriving DecidableEq, Repr

def State.setStage (s : State) (k : ℕ) (p : Publish) (stage : Stage) : State :=
  { s with published := s.published.set k { p with stage } }

def step (s : State) : Event → Option State
  | .publish frame => some (if s.writable then { s with tested := s.tested ++ [frame] } else s)
  | .number i =>
    match s.tested[i]? with
    | none => none
    | some frame => some { s with
        tested := s.tested.eraseIdx i
        published := s.published ++ [⟨frame, s.sequence, .numbered⟩]
        sequence := s.sequence + 1 }
  | .encode k =>
    match s.published[k]? with
    | some ⟨frame, sequence, .numbered⟩ =>
      match fragments sequence frame s.shortMax with
      | .error e => some (s.setStage k ⟨frame, sequence, .numbered⟩ (.refused e))
      | .ok f => some (s.setStage k ⟨frame, sequence, .numbered⟩ (.sending f))
    | _ => none
  | .hand k taken =>
    match s.published[k]? with
    | some ⟨frame, sequence, .sending f⟩ =>
      match f.next with
      | none => some (s.setStage k ⟨frame, sequence, .sending f⟩ .sent)
      | some ((head, body), left) =>
        some { s.setStage k ⟨frame, sequence, .sending f⟩ (if taken then .sending left else .failed) with
          wire := s.wire ++ [(k, head.asRef ++ body)] }
    | _ => none
  | .close => some { s with writable := false }

/-! ### What a receiver relies on -/

/-- The number that a datagram carries. -/
def numberOf (datagram : Bytes) : Option UInt32 :=
  match decode datagram with
  | .ok (.whole sequence _) => some sequence
  | .ok (.fragment f) => some f.sequence
  | .error _ => none

/-- `fragments` did not refuse it, so far. -/
def Publish.goes (p : Publish) : Bool :=
  match p.stage with
  | .refused _ => false
  | _ => true

/-- Nothing more comes of it. -/
def Publish.over (p : Publish) : Bool :=
  match p.stage with
  | .numbered | .sending _ => false
  | _ => true

namespace State

/-- The numbers of the messages of which a datagram was handed to the socket. -/
def carried (s : State) : List UInt32 :=
  (List.range s.published.length).filterMap fun k =>
    (s.wire.find? (·.1 = k)).bind fun datagram => numberOf datagram.2

/-- The messages are numbered 0, 1, 2 and so on. -/
structure InSequence (s : State) : Prop where
  /-- A publish that is refused leaves the counter as it was. -/
  counter : s.sequence = UInt32.ofNat (s.published.countP Publish.goes)
  /-- Every datagram carries the number of the messages that go in front of its own. -/
  datagram : ∀ k bytes, (k, bytes) ∈ s.wire →
    numberOf bytes = some (UInt32.ofNat ((s.published.take k).countP Publish.goes))
  /-- Where no publish is under way, none is left out of those that were handed over. -/
  carried : (∀ p ∈ s.published, p.over = true) →
    s.carried = (List.range s.carried.length).map UInt32.ofNat

end State

/-! ### What a step does -/

/-- The datagrams of a layout carry the number it was made with, and there is one at least. -/
theorem number_item {sequence : UInt32} {frame : Frame} {shortMax : ℕ} {f : Fragments}
    (h : fragments sequence frame shortMax = .ok f) :
    f.index = 0 ∧ 0 < f.count ∧
      ∀ i < f.count, numberOf ((f.item i).1.asRef ++ (f.item i).2) = some sequence := by
  obtain ⟨hvalid, rfl | ⟨hseveral, rfl, hchannel, -⟩⟩ := fragments_cases h
  · refine ⟨rfl, Nat.one_pos, fun i hi => ?_⟩
    obtain rfl : i = 0 := Nat.lt_one_iff.1 hi
    rw [numberOf, decode_whole hvalid]
  · refine ⟨hseveral.index_zero, by have := hseveral.two_le; omega, fun i hi => ?_⟩
    rw [numberOf, hseveral.decode_item hchannel.symm hvalid hi]
    rfl

/-- What one step comes to. -/
inductive Steps (s : State) : Event → State → Prop
  | tested (frame : Frame) (tested : List Frame) : Steps s (.publish frame) { s with tested }
  | closed : Steps s .close { s with writable := false }
  | number (i : ℕ) (frame : Frame) (tested : List Frame) :
      Steps s (.number i) { s with
        tested
        published := s.published ++ [⟨frame, s.sequence, .numbered⟩]
        sequence := s.sequence + 1 }
  | refused (k : ℕ) (p : Publish) (error : WireError) (hp : s.published[k]? = some p)
      (hstage : p.stage = .numbered)
      (hlayout : fragments p.sequence p.frame s.shortMax = .error error) :
      Steps s (.encode k) (s.setStage k p (.refused error))
  | laidOut (k : ℕ) (p : Publish) (f : Fragments) (hp : s.published[k]? = some p)
      (hstage : p.stage = .numbered) (hlayout : fragments p.sequence p.frame s.shortMax = .ok f) :
      Steps s (.encode k) (s.setStage k p (.sending f))
  | through (k : ℕ) (taken : Bool) (p : Publish) (f : Fragments) (hp : s.published[k]? = some p)
      (hstage : p.stage = .sending f) (hend : f.count ≤ f.index) :
      Steps s (.hand k taken) (s.setStage k p .sent)
  | handed (k : ℕ) (taken : Bool) (p : Publish) (f : Fragments) (hp : s.published[k]? = some p)
      (hstage : p.stage = .sending f) (hmore : f.index < f.count) :
      Steps s (.hand k taken)
        { s.setStage k p (if taken then .sending { f with index := f.index + 1 } else .failed) with
          wire := s.wire ++ [(k, (f.item f.index).1.asRef ++ (f.item f.index).2)] }

theorem steps_of_step {s t : State} {e : Event} (h : step s e = some t) : Steps s e t := by
  cases e with
  | publish frame =>
    simp only [step] at h
    split at h <;> cases h
    · exact .tested frame _
    · exact .tested frame s.tested
  | number i =>
    simp only [step] at h
    split at h <;> cases h
    exact .number i _ _
  | encode k =>
    simp only [step] at h
    split at h
    · split at h <;> cases h
      · exact .refused k _ _ ‹_› rfl ‹_›
      · exact .laidOut k _ _ ‹_› rfl ‹_›
    · cases h
  | hand k taken =>
    simp only [step] at h
    split at h
    · rename_i frame sequence f hp
      by_cases hend : f.count ≤ f.index
      · have hnext : f.next = none := if_pos hend
        rw [hnext] at h
        cases h
        exact .through k taken _ f hp rfl hend
      · have hnext : f.next = some (f.item f.index, { f with index := f.index + 1 }) := if_neg hend
        rw [hnext] at h
        cases h
        exact .handed k taken _ f hp rfl (not_le.1 hend)
    · cases h
  | close =>
    cases h
    exact .closed

/-- A publish is where it was, or it is the one that took the step. -/
theorem published_setStage {s : State} {k : ℕ} {p : Publish} {stage : Stage} {j : ℕ} {q : Publish}
    (hq : (s.setStage k p stage).published[j]? = some q) :
    (j = k ∧ q = { p with stage }) ∨ s.published[j]? = some q := by
  rw [State.setStage, List.getElem?_set] at hq
  split_ifs at hq with hj hlt
  · exact .inl ⟨hj.symm, (Option.some.inj hq).symm⟩
  · exact .inr hq

/-! ### What holds in every run -/

/-- The publish at the place `k`, with the datagrams on the wire. -/
structure Publish.Sound (shortMax : ℕ) (wire : List (ℕ × Bytes)) (k : ℕ) (p : Publish) : Prop where
  numbered : p.sequence = UInt32.ofNat k
  sending : ∀ f, p.stage = .sending f →
    fragments p.sequence p.frame shortMax = .ok { f with index := 0 } ∧
      (0 < f.index → ∃ bytes, (k, bytes) ∈ wire)
  /-- A publish that is over, and was not refused, handed a datagram to the socket. -/
  handed : p.over = true → p.goes = true → ∃ bytes, (k, bytes) ∈ wire

structure Sound (s : State) : Prop where
  counter : s.sequence = UInt32.ofNat s.published.length
  publish : ∀ (k : ℕ) (p : Publish), s.published[k]? = some p → p.Sound s.shortMax s.wire k
  wire : ∀ k bytes, (k, bytes) ∈ s.wire →
    k < s.published.length ∧ numberOf bytes = some (UInt32.ofNat k)

theorem Publish.Sound.mono {shortMax k : ℕ} {wire : List (ℕ × Bytes)} {p : Publish}
    (h : p.Sound shortMax wire k) (more : List (ℕ × Bytes)) : p.Sound shortMax (wire ++ more) k where
  numbered := h.numbered
  sending f hf := ⟨(h.sending f hf).1, fun hpos =>
    ((h.sending f hf).2 hpos).imp fun _ => List.mem_append_left more⟩
  handed hover hgoes := (h.handed hover hgoes).imp fun _ => List.mem_append_left more

theorem sound_new (shortMax : ℕ) : Sound (.new shortMax) where
  counter := rfl
  publish k p hp := by cases hp
  wire k bytes hbytes := by cases hbytes

/-- One publish goes on, and hands over datagrams of its own. -/
theorem Sound.hand {s : State} (h : Sound s) {k : ℕ} {p : Publish} (hp : s.published[k]? = some p)
    (stage : Stage) (more : List Bytes)
    (hnew : Publish.Sound s.shortMax (s.wire ++ more.map (k, ·)) k { p with stage })
    (hmore : ∀ bytes ∈ more, numberOf bytes = some p.sequence) :
    Sound { s.setStage k p stage with wire := s.wire ++ more.map (k, ·) } where
  counter := by simpa [State.setStage] using h.counter
  publish j q hq := by
    rcases published_setStage hq with ⟨rfl, rfl⟩ | hq
    · exact hnew
    · exact (h.publish j q hq).mono _
  wire j bytes hbytes := by
    obtain ⟨hk, -⟩ := List.getElem?_eq_some_iff.1 hp
    rcases List.mem_append.1 hbytes with hold | hnew
    · simpa [State.setStage] using h.wire j bytes hold
    · obtain ⟨_, hmem, heq⟩ := List.mem_map.1 hnew
      cases heq
      exact ⟨by simpa [State.setStage] using hk, (h.publish k p hp).numbered ▸ hmore bytes hmem⟩

/-- One publish goes on, and hands over nothing. -/
theorem Sound.setStage {s : State} (h : Sound s) {k : ℕ} {p : Publish}
    (hp : s.published[k]? = some p) (stage : Stage)
    (hnew : Publish.Sound s.shortMax s.wire k { p with stage }) : Sound (s.setStage k p stage) := by
  have := h.hand hp stage [] (by simpa using hnew) (by simp)
  rwa [List.map_nil, List.append_nil] at this

/-- **No step takes a publish out of its place, or puts a datagram of another number on the wire.** -/
theorem Sound.step {s t : State} {e : Event} (h : Sound s) (hstep : step s e = some t) : Sound t := by
  cases steps_of_step hstep with
  | tested | closed => exact ⟨h.counter, h.publish, h.wire⟩
  | number i frame tested =>
    refine ⟨?_, fun k p hp => ?_, fun k bytes hbytes => ?_⟩
    · rw [h.counter, List.length_append, List.length_singleton, UInt32.ofNat_add]
      rfl
    · rw [List.getElem?_append, List.getElem?_singleton] at hp
      split_ifs at hp with hk hlast
      · exact h.publish k p hp
      · obtain rfl : k = s.published.length := by omega
        cases hp
        exact ⟨h.counter, by simp, fun hover => by cases hover⟩
    · obtain ⟨hk, hnumber⟩ := h.wire k bytes hbytes
      exact ⟨by rw [List.length_append]; omega, hnumber⟩
  | refused k p error hp hstage hlayout =>
    exact h.setStage hp _ ⟨(h.publish k p hp).numbered, by simp, fun _ hgoes => by cases hgoes⟩
  | laidOut k p f hp hstage hlayout =>
    obtain ⟨hzero, -, -⟩ := number_item hlayout
    refine h.setStage hp _ ⟨(h.publish k p hp).numbered, fun g hg => ?_, fun hover => by cases hover⟩
    cases hg
    have hstart : { f with index := 0 } = f := by rw [← hzero]
    exact ⟨hstart.symm ▸ hlayout, fun hpos => absurd hpos (by omega)⟩
  | through k taken p f hp hstage hend =>
    obtain ⟨hlayout, hhanded⟩ := (h.publish k p hp).sending f hstage
    obtain ⟨-, hcount, -⟩ := number_item hlayout
    exact h.setStage hp _ ⟨(h.publish k p hp).numbered, by simp,
      fun _ _ => hhanded (hcount.trans_le hend)⟩
  | handed k taken p f hp hstage hmore =>
    obtain ⟨hlayout, -⟩ := (h.publish k p hp).sending f hstage
    obtain ⟨-, -, hnumber⟩ := number_item hlayout
    refine h.hand hp _ [(f.item f.index).1.asRef ++ (f.item f.index).2] ?_ ?_
    · have hwire : ∃ bytes, (k, bytes) ∈ s.wire ++
          [(f.item f.index).1.asRef ++ (f.item f.index).2].map (k, ·) :=
        ⟨_, List.mem_append_right _ List.mem_cons_self⟩
      refine ⟨(h.publish k p hp).numbered, fun g hg => ?_, fun _ _ => hwire⟩
      split at hg <;> cases hg
      exact ⟨hlayout, fun _ => hwire⟩
    · intro bytes hbytes
      rw [List.mem_singleton.1 hbytes]
      exact hnumber f.index hmore

/-! ### Whether a number missing is a message lost -/

/-- A message that `fragments` does not refuse. -/
def Sendable (frame : Frame) (shortMax : ℕ) : Prop :=
  ValidChannel frame.channel maxChannelLen ∧ frame.payload.length ≤ maxMessageLen ∧
    (spanOf frame ≤ shortMax ∨ minimumOf frame ≤ shortMax ∧
      divCeil (spanOf frame) (shortMax - headerGap) ≤ 65535)

instance (frame : Frame) (shortMax : ℕ) : Decidable (Sendable frame shortMax) :=
  inferInstanceAs (Decidable (_ ∧ _ ∧ _))

theorem sendable_iff {sequence : UInt32} {frame : Frame} {shortMax : ℕ} :
    Sendable frame shortMax ↔ ∃ f, fragments sequence frame shortMax = .ok f := by
  constructor
  · rintro ⟨hvalid, hpayload, hroom⟩
    exact (exists_fragments_iff hvalid hpayload sequence shortMax).2 hroom
  · rintro ⟨f, hf⟩
    obtain ⟨hvalid, hpayload⟩ := sendable_of_ok hf
    exact ⟨hvalid, hpayload, (exists_fragments_iff hvalid hpayload sequence shortMax).1 ⟨f, hf⟩⟩

/-- The message that a step lays out, where it lays one out, is not refused. -/
def Encodes (s : State) : Event → Prop
  | .encode k => ∀ p ∈ s.published[k]?, Sendable p.frame s.shortMax
  | _ => True

instance (s : State) : (e : Event) → Decidable (Encodes s e)
  | .encode k => inferInstanceAs (Decidable (∀ p ∈ s.published[k]?, Sendable p.frame s.shortMax))
  | .publish _ | .number _ | .hand _ _ | .close => isTrue trivial

/-- No message has been refused. -/
def AllGo (s : State) : Prop := ∀ p ∈ s.published, p.goes = true

theorem AllGo.setStage {s : State} (h : AllGo s) (k : ℕ) (p : Publish) (stage : Stage)
    (hstage : ({ p with stage } : Publish).goes = true) : AllGo (s.setStage k p stage) := by
  intro q hq
  rcases List.mem_or_eq_of_mem_set hq with hq | rfl
  · exact h q hq
  · exact hstage

theorem AllGo.step {s t : State} {e : Event} (h : AllGo s) (hencodes : Encodes s e)
    (hstep : step s e = some t) : AllGo t := by
  cases steps_of_step hstep with
  | tested | closed => exact h
  | number i frame tested =>
    intro p hp
    rcases List.mem_append.1 hp with hp | hp
    · exact h p hp
    · rw [List.mem_singleton.1 hp]
      rfl
  | refused k p error hp hstage hlayout =>
    obtain ⟨f, hf⟩ := sendable_iff.1 (hencodes p hp)
    rw [hlayout] at hf
    cases hf
  | laidOut k p f hp hstage hlayout => exact h.setStage k p _ rfl
  | through k taken p f hp hstage hend => exact h.setStage k p _ rfl
  | handed k taken p f hp hstage hmore =>
    exact h.setStage k p (if taken then .sending { f with index := f.index + 1 } else .failed)
      (by split <;> rfl)

/-- The datagrams on the wire have the numbers of the places of their publishes. -/
theorem Sound.carried {s : State} (h : Sound s) (hgo : AllGo s)
    (hover : ∀ p ∈ s.published, p.over = true) :
    s.carried = (List.range s.published.length).map UInt32.ofNat := by
  rw [State.carried, ← List.filterMap_eq_map]
  refine List.filterMap_congr fun k hk => ?_
  have hp := List.getElem?_eq_getElem (List.mem_range.1 hk)
  have hmem := List.mem_of_getElem? hp
  obtain ⟨bytes, hbytes⟩ := (h.publish k _ hp).handed (hover _ hmem) (hgo _ hmem)
  have hfound : (s.wire.find? (·.1 = k)).isSome = true :=
    List.find?_isSome.2 ⟨_, hbytes, by simp⟩
  obtain ⟨⟨j, datagram⟩, hfind⟩ := Option.isSome_iff_exists.1 hfound
  obtain rfl : j = k := by simpa using List.find?_some hfind
  rw [hfind]
  exact (h.wire j datagram (List.mem_of_find?_eq_some hfind)).2

theorem Sound.inSequence {s : State} (h : Sound s) (hgo : AllGo s) : s.InSequence where
  counter := by rw [List.countP_eq_length.2 hgo, h.counter]
  datagram k bytes hbytes := by
    obtain ⟨hk, hnumber⟩ := h.wire k bytes hbytes
    rw [List.countP_eq_length.2 fun p hp => hgo p (List.mem_of_mem_take hp), List.length_take,
      Nat.min_eq_left hk.le, hnumber]
  carried hover := by rw [h.carried hgo hover, List.length_map, List.length_range]

/-- A publish that is refused leaves the counter above the messages that go. -/
theorem not_inSequence_of_refused {s : State} (h : s.InSequence) {k : ℕ} {p : Publish}
    (hp : s.published[k]? = some p) (hstage : p.stage = .numbered) (error : WireError) :
    ¬ (s.setStage k p (.refused error)).InSequence := by
  intro h'
  obtain ⟨hk, hget⟩ := List.getElem?_eq_some_iff.1 hp
  have hgoes : p.goes = true := by rw [Publish.goes, hstage]
  have hone : 0 < s.published.countP Publish.goes :=
    List.countP_pos_iff.2 ⟨p, List.mem_of_getElem? hp, hgoes⟩
  have hless : (s.setStage k p (.refused error)).published.countP Publish.goes =
      s.published.countP Publish.goes - 1 := by
    rw [State.setStage, List.countP_set hk, hget, if_pos hgoes]
    simp [Publish.goes]
  have hcounter := h'.counter
  rw [hless, show (s.setStage k p (.refused error)).sequence = s.sequence from rfl, h.counter] at hcounter
  obtain ⟨n, hn⟩ := Nat.exists_eq_add_of_lt hone
  rw [hn, Nat.zero_add, Nat.add_sub_cancel, UInt32.ofNat_add] at hcounter
  exact absurd (add_eq_left.1 hcounter) (by decide)

/-- Where every state of a run is in sequence, no message in it was refused. -/
theorem each_of_inSequence {s t : State} {es : List Event} (hrun : run step s es = some t)
    (h : ∀ n u, run step s (es.take n) = some u → u.InSequence) : Each step Encodes s es := by
  induction es generalizing s with
  | nil => trivial
  | cons e es ih =>
    obtain ⟨u, hu, hrest⟩ := run_cons_eq_some.1 hrun
    have hs : s.InSequence := h 0 s rfl
    have hnext : u.InSequence := h 1 u (run_cons_eq_some.2 ⟨u, hu, rfl⟩)
    refine ⟨?_, fun v hv => ?_⟩
    · cases steps_of_step hu with
      | refused k p error hp hstage hlayout =>
        exact absurd hnext (not_inSequence_of_refused hs hp hstage error)
      | laidOut k p f hp hstage hlayout =>
        intro q hq
        obtain rfl : p = q := Option.some.inj (hp.symm.trans hq)
        exact sendable_iff.2 ⟨f, hlayout⟩
      | tested | closed | number | through | handed => trivial
    · obtain rfl : u = v := Option.some.inj (hu.symm.trans hv)
      exact ih hrest fun n w hw => h (n + 1) w (run_cons_eq_some.2 ⟨u, hu, hw⟩)

/-- **A number missing is a message lost**, in every state of a run, as long as no message in it is
refused by `fragments`, and no longer. -/
theorem in_sequence_iff {shortMax : ℕ} {es : List Event} {t : State}
    (hrun : run step (.new shortMax) es = some t) :
    (∀ n s, run step (.new shortMax) (es.take n) = some s → s.InSequence) ↔
      Each step Encodes (.new shortMax) es := by
  refine ⟨each_of_inSequence hrun, fun hes n s hs => ?_⟩
  have hfront : Each step Encodes (.new shortMax) (es.take n) := by
    rw [← List.take_append_drop n es] at hes
    exact hes.append_left
  obtain ⟨hsound, hgo⟩ := run_invariant_of_each (P := fun s => Sound s ∧ AllGo s)
    (fun s e t h hencodes hstep => ⟨h.1.step hstep, h.2.step hencodes hstep⟩)
    ⟨sound_new shortMax, fun p hp => by cases hp⟩ hfront hs
  exact hsound.inSequence hgo

/-- A message in three fragments and one in a datagram, published by two threads: the one that took
its number later is on the wire first. -/
def twoPublishes : List Event :=
  [.publish ⟨"A", List.replicate 30 1⟩, .publish ⟨"B", [2]⟩, .number 0, .number 0, .encode 1, .encode 0,
    .hand 1 true, .hand 0 true, .hand 1 true, .hand 0 true, .hand 0 true, .hand 0 true]

theorem in_sequence_of_two : ∃ t, run step (.new 24) twoPublishes = some t ∧
    t.carried = [0, 1] ∧ t.InSequence := by
  obtain ⟨t, hrun, hcarried⟩ : ∃ t, run step (.new 24) twoPublishes = some t ∧ t.carried = [0, 1] :=
    ⟨_, rfl, by decide +kernel⟩
  have hes : Each step Encodes (.new 24) twoPublishes := by decide +kernel
  exact ⟨t, hrun, hcarried, (in_sequence_iff hrun).2 hes twoPublishes.length t
    (by rw [List.take_length]; exact hrun)⟩

/-- A publish with no channel, and one behind it that goes. -/
def refusedPublish : List Event :=
  [.publish ⟨"", [1]⟩, .number 0, .encode 0, .publish ⟨"A", [1]⟩, .number 0, .encode 1, .hand 1 true,
    .hand 1 true]

/-- The first message that a receiver has from such a client is number one, and none is lost. -/
theorem skips_zero_of_refused : ∃ t, run step (.new 1400) refusedPublish = some t ∧
    (∀ p ∈ t.published, p.over = true) ∧ t.carried = [1] ∧ t.sequence = 2 ∧ ¬ t.InSequence := by
  obtain ⟨t, hrun, hover, hcarried, hcounter⟩ : ∃ t, run step (.new 1400) refusedPublish = some t ∧
      (∀ p ∈ t.published, p.over = true) ∧ t.carried = [1] ∧ t.sequence = 2 :=
    ⟨_, rfl, by decide +kernel, by decide +kernel, by decide +kernel⟩
  refine ⟨t, hrun, hover, hcarried, hcounter, fun h => ?_⟩
  have hbad := h.carried hover
  rw [hcarried] at hbad
  exact absurd hbad (by decide)

end LcmBus.Multicast
