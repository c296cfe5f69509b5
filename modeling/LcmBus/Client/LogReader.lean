import LcmBus.Lib.Loop
import LcmBus.Client.StreamReader
import LcmBus.Wire.Log

/-!
# The reader of a log

`log_reader` of `logfile.rs`, which replays a log.

* `logReader`: one turn of its loop, over the buffer and the file it is filled from;
* `look`: what a turn finds at the front of what has come, as a parser of the file, which slides to
  the next sync word where an event is torn;
* `Turned`: what one turn does, and `turned` that it does no other thing;
* `exists_end_of_view`: what a replay comes to, from what may be taken of the bytes of its file.

`running` is set throughout, and the rate of the replay is not here: it moves no event and drops
none.
-/

namespace LcmBus.LogFile

open Log Incremental

/-- The largest event this reader will hold. -/
def logEventMax : ℕ := headerLen + channelMax + maxMessageLen

/-- What a handler hears of an event.  The number is that of its `Origin::Log`. -/
structure Delivery where
  frame : Frame
  timestamp : Int64
  number : Int64
  deriving DecidableEq, Repr

/-- What the handler heard, and the counters. -/
structure Heard where
  counters : Counters
  delivered : List Delivery
  deriving DecidableEq, Repr

/-- A reader between two turns. -/
structure Replay where
  pending : ReadBuffer
  source : Source
  /-- The event of the last turn is taken out of the buffer at the start of the next one. -/
  decoded : ℕ
  heard : Heard

def deliveryOf (event : Event) : Delivery := ⟨event.frame, event.timestamp, event.number⟩

section Turn

variable {Regex : Type} (engine : Engine Regex) (subscriptions : Subscriptions Regex)
  (start : Option Int64)

/-- The handler hears the event, where it is not before the start. -/
def wanted (event : Event) : Bool :=
  ¬ start.any (fun start => event.timestamp < start) ∧ subscriptions.selects engine event.frame.channel

/-- Without a start, the handler hears what is subscribed to. -/
theorem wanted_none : wanted engine subscriptions none =
    fun event => subscriptions.selects engine event.frame.channel := by
  funext event
  simp [wanted]

def onEvent (heard : Heard) (event : Event) : Heard :=
  let counters := { heard.counters with received := heard.counters.received + 1 }
  if wanted engine subscriptions start event then
    ⟨{ counters with delivered := counters.delivered + 1 }, heard.delivered ++ [deliveryOf event]⟩
  else ⟨counters, heard.delivered⟩

def onLost (heard : Heard) : Heard :=
  { heard with counters := { heard.counters with discarded := heard.counters.discarded + 1 } }

def onSkip (heard : Heard) : Heard :=
  onLost { heard with counters := { heard.counters with received := heard.counters.received + 1 } }

/-- How far the reader slides off a torn event: to the next sync word, or over all but the bytes
that can hold the start of one. -/
def slide (unread : Bytes) : ℕ :=
  match resync (unread.drop 1) with
  | some offset => 1 + offset
  | none => unread.length - 3

/-- One turn of `log_reader`. -/
def logReader (s : Replay) : Replay × Option Stop :=
  let pending := s.pending.consume s.decoded
  match decode pending.unread with
  | .ok (.item event used) =>
    ({ s with pending, decoded := used, heard := onEvent engine subscriptions start s.heard event },
      none)
  | .ok (.skip bytes) => ({ s with pending, decoded := bytes, heard := onSkip s.heard }, none)
  | .ok (.need bytes) =>
    match pending.reserve bytes with
    | none => ({ s with pending, decoded := 0 }, some (.wire (.messageTooLarge bytes)))
    | some pending =>
      match pending.fillFrom s.source with
      | (.ok 0, pending, source) =>
        -- The head read, so what is left is that event cut short.
        if pending.unread = [] then ({ s with pending, source, decoded := 0 }, some .endOfLog)
        else ({ pending, source, decoded := 0, heard := onLost s.heard }, some .tornLog)
      | (.ok _, pending, source) => ({ s with pending, source, decoded := 0 }, none)
      | (.error e, pending, source) =>
        ({ s with pending, source, decoded := 0 }, if isTimeout e then none else some (.io e))
  | .error _ =>
    ({ s with pending, decoded := slide pending.unread, heard := onLost s.heard }, none)

/-- A reader at its start, with a buffer of `floor` bytes. -/
def replayOf (floor : ℕ) (source : Source) : Replay :=
  ⟨.withLimits floor logEventMax, source, 0, ⟨.zero, []⟩⟩

/-- `log_reader` starts with 64 KiB. -/
def logStart (source : Source) : Replay := replayOf (64 * 1024) source

end Turn

/-! ### What a turn finds -/

/-- An event, one that costs itself, or bytes to slide over. -/
inductive Found
  | event (event : Event)
  | skipped
  | slid
  deriving DecidableEq, Repr

/-- What a turn finds at the front of what has come. -/
def look (unread : Bytes) : Answer Found Empty :=
  match decode unread with
  | .ok (.item event used) => .take (.event event) used
  | .ok (.skip bytes) => .take .skipped bytes
  | .ok (.need bytes) => .need bytes
  | .error _ => .take .slid (slide unread)

/-- What the reader makes of an event that is whole. -/
def foundOf (event : Option Event) : Found := event.elim .skipped .event

theorem look_decoded {unread : Bytes} {h : Head} (hdecode : decode unread = .ok (h.decoded unread)) :
    look unread = .take (foundOf (h.event unread)) h.len := by
  rw [look, hdecode, Head.decoded]
  cases h.event unread <;> rfl

/-- Off a torn event the reader goes on, and no further than it has read. -/
theorem slide_bounds {unread : Bytes} (h : headerLen ≤ unread.length) :
    0 < slide unread ∧ slide unread ≤ unread.length := by
  have h28 := length_header
  unfold slide
  cases hsync : resync (unread.drop 1) with
  | none => exact ⟨by dsimp only; omega, Nat.sub_le _ _⟩
  | some offset =>
    have hlt := (syncAt_of_resync hsync).add_le
    rw [List.length_drop] at hlt
    dsimp only
    omega

/-- The ways `decode` can answer. -/
theorem look_cases (unread : Bytes) :
    (∃ n, look unread = .need n ∧ unread.length < n ∧ n ≤ logEventMax) ∨
    (∃ h, headerLen ≤ unread.length ∧ head unread = .ok h ∧ h.len ≤ unread.length ∧
      Behind unread h.len ∧ look unread = .take (foundOf (h.event unread)) h.len) ∨
    (headerLen ≤ unread.length ∧ look unread = .take .slid (slide unread) ∧
      ∀ h, head unread = .ok h → h.len ≤ unread.length → ¬ Behind unread h.len) := by
  by_cases hshort : unread.length < headerLen
  · exact .inl ⟨headerLen, by rw [look, decode_short hshort], hshort,
      by simp only [logEventMax]; omega⟩
  have hlong : headerLen ≤ unread.length := by omega
  cases hhead : head unread with
  | error e =>
    exact .inr (.inr ⟨hlong, by rw [look, decode_of_error hlong hhead], by simp⟩)
  | ok h =>
    have hdecode := decode_of_head hlong hhead
    by_cases hlen : unread.length < h.len
    · rw [if_pos hlen] at hdecode
      exact .inl ⟨h.len, by rw [look, hdecode], hlen, (len_of_head hhead).2⟩
    rw [if_neg hlen] at hdecode
    by_cases hbehind : Behind unread h.len
    · rw [if_pos hbehind] at hdecode
      exact .inr (.inl ⟨h, hlong, rfl, by omega, hbehind, look_decoded hdecode⟩)
    · rw [if_neg hbehind] at hdecode
      refine .inr (.inr ⟨hlong, by rw [look, hdecode], ?_⟩)
      rintro h' ⟨⟩ _
      exact hbehind

theorem takes_look : Takes look := by
  intro unread found used hlook
  rcases look_cases unread with ⟨n, hneed, -⟩ | ⟨h, -, hhead, hlen, -, htake⟩ | ⟨hlong, hslid, -⟩
  · simp [hneed] at hlook
  · rw [htake] at hlook
    cases hlook
    have := (len_of_head hhead).1
    omega
  · rw [hslid] at hlook
    cases hlook
    exact slide_bounds hlong

theorem need_look {unread : Bytes} {n : ℕ} (h : look unread = .need n) :
    unread.length < n ∧ n ≤ logEventMax := by
  rcases look_cases unread with ⟨m, hneed, hm⟩ | ⟨_, _, _, _, _, htake⟩ | ⟨_, hslid, _⟩
  · rw [hneed] at h
    cases h
    exact hm
  · rw [htake] at h
    cases h
  · rw [hslid] at h
    cases h

/-! ### What a turn does -/

/-- What comes of what a turn found. -/
def onFound {Regex : Type} (engine : Engine Regex) (subscriptions : Subscriptions Regex)
    (start : Option Int64) (heard : Heard) : Found → Heard
  | .event event => onEvent engine subscriptions start heard event
  | .skipped => onSkip heard
  | .slid => onLost heard

namespace Replay

/-- The bytes the next turn is shown. -/
def left (s : Replay) : Bytes := s.pending.unread.drop s.decoded

/-- The bytes that are not taken, come or not. -/
def view (s : Replay) : Bytes := s.left ++ s.source.rest

/-- The turns that are left. -/
def turns (s : Replay) : ℕ := s.left.length + 2 * s.source.rest.length + s.source.cuts.length

/-- What holds of a reader between two turns. -/
structure Sound (s : Replay) : Prop where
  ceiling : logEventMax ≤ s.pending.ceiling
  decoded_le : s.decoded ≤ s.pending.unread.length

end Replay

section Turned

variable {Regex : Type} (engine : Engine Regex) (subscriptions : Subscriptions Regex)
  (start : Option Int64)

/-- What one turn does. -/
inductive Turned (s : Replay) : Replay × Option Stop → Prop
  | took (t : Replay) (found : Found) (used : ℕ) (hlook : look s.left = .take found used)
      (hleft : t.left = s.left.drop used) (hsource : t.source = s.source)
      (hheard : t.heard = onFound engine subscriptions start s.heard found) : Turned s (t, none)
  | read (t : Replay) (n k : ℕ) (cuts : List Cut) (hlook : look s.left = .need n)
      (hk : s.source.rest.take k ≠ []) (hleft : t.left = s.left ++ s.source.rest.take k)
      (hsource : t.source = ⟨s.source.rest.drop k, cuts⟩)
      (hcuts : cuts.length ≤ s.source.cuts.length) (hsub : cuts ⊆ s.source.cuts)
      (hheard : t.heard = s.heard) : Turned s (t, none)
  | waited (t : Replay) (n : ℕ) (cuts : List Cut) (hlook : look s.left = .need n)
      (hleft : t.left = s.left) (hsource : t.source = ⟨s.source.rest, cuts⟩)
      (hcuts : cuts.length < s.source.cuts.length) (hsub : cuts ⊆ s.source.cuts)
      (hheard : t.heard = s.heard) (hwaits : Cut.timedOut ∈ s.source.cuts) : Turned s (t, none)
  | failed (t : Replay) (e : IoError) (hfailed : Cut.failed ∈ s.source.cuts)
      (hheard : t.heard = s.heard) : Turned s (t, some (.io e))
  | ended (t : Replay) (n : ℕ) (hlook : look s.left = .need n) (hrest : s.source.rest = [])
      (hheard : t.heard = if s.left = [] then s.heard else onLost s.heard) :
      Turned s (t, some (if s.left = [] then .endOfLog else .tornLog))

variable {engine subscriptions start} {s t : Replay}

variable (engine subscriptions start) in
/-- **A turn takes what it finds, or reads, or ends with the file.** -/
theorem turned (h : s.Sound) : (logReader engine subscriptions start s).1.Sound ∧
    Turned engine subscriptions start s (logReader engine subscriptions start s) := by
  have hunread : (s.pending.consume s.decoded).unread = s.left := s.pending.unread_consume _
  have hceiling : logEventMax ≤ (s.pending.consume s.decoded).ceiling := by simpa using h.ceiling
  unfold logReader
  dsimp only
  rw [hunread]
  cases hdecode : decode s.left with
  | error e =>
    have hlook : look s.left = .take .slid (slide s.left) := by rw [look, hdecode]
    refine ⟨⟨hceiling, ?_⟩, .took _ _ _ hlook ?_ rfl rfl⟩
    · rw [hunread]
      exact (takes_look _ _ _ hlook).2
    · rw [Replay.left, hunread]
  | ok decoded =>
    cases decoded with
    | item event used =>
      have hlook : look s.left = .take (.event event) used := by rw [look, hdecode]
      refine ⟨⟨hceiling, ?_⟩, .took _ _ _ hlook ?_ rfl rfl⟩
      · rw [hunread]
        exact (takes_look _ _ _ hlook).2
      · rw [Replay.left, hunread]
    | skip bytes =>
      have hlook : look s.left = .take .skipped bytes := by rw [look, hdecode]
      refine ⟨⟨hceiling, ?_⟩, .took _ _ _ hlook ?_ rfl rfl⟩
      · rw [hunread]
        exact (takes_look _ _ _ hlook).2
      · rw [Replay.left, hunread]
    | need bytes =>
      have hlook : look s.left = .need bytes := by rw [look, hdecode]
      obtain ⟨hshort, hmost⟩ := need_look hlook
      obtain ⟨pending, hreserve, hkept, hceiling'⟩ :=
        (s.pending.consume s.decoded).reserve_of_le (hmost.trans hceiling)
      rw [hunread] at hkept
      have hroom : pending.unread.length < pending.ceiling := by
        rw [hkept, hceiling']
        omega
      simp only [hreserve]
      obtain ⟨k, filled, cuts, hfill, hk, hput, hceiling'', hcuts, hsub⟩ |
        ⟨e, filled, cuts, hfill, hput, hceiling'', hcuts, hsub, he⟩ :=
        ReadBuffer.fillFrom_cases s.source hroom
      · cases hlen : (s.source.rest.take k).length with
        | zero =>
          have hnil : s.source.rest.take k = [] := List.length_eq_zero_iff.1 hlen
          have hrest : s.source.rest = [] := by
            rw [List.length_take] at hlen
            exact List.length_eq_zero_iff.1 (by omega)
          rw [hlen] at hfill
          rw [hnil, List.append_nil, hkept] at hput
          simp only [hfill, hput]
          have hended : ∀ t : Replay, t.heard = (if s.left = [] then s.heard else onLost s.heard) →
              Turned engine subscriptions start s
                (t, some (if s.left = [] then .endOfLog else .tornLog)) :=
            fun t => .ended t bytes hlook hrest
          by_cases hempty : s.left = []
          · simp only [if_pos hempty] at hended ⊢
            exact ⟨⟨by simp only; omega, Nat.zero_le _⟩, hended _ rfl⟩
          · simp only [if_neg hempty] at hended ⊢
            exact ⟨⟨by simp only; omega, Nat.zero_le _⟩, hended _ rfl⟩
        | succ m =>
          rw [hlen] at hfill
          simp only [hfill]
          refine ⟨⟨by simp only; omega, Nat.zero_le _⟩,
            .read _ bytes k cuts hlook ?_ ?_ rfl hcuts hsub rfl⟩
          · intro hnil
            simp [hnil] at hlen
          · rw [Replay.left, hput, hkept, List.drop_zero]
      · simp only [hfill]
        refine ⟨⟨by simp only; omega, Nat.zero_le _⟩, ?_⟩
        by_cases htimeout : isTimeout e = true
        · rw [if_pos htimeout] at he ⊢
          exact .waited _ bytes cuts hlook (by rw [Replay.left, hput, hkept, List.drop_zero]) rfl hcuts
            hsub rfl he
        · rw [if_neg htimeout] at he ⊢
          exact .failed _ e he rfl

/-- What comes of an event that a turn takes. -/
theorem heard_of_item {event : Event} {used : ℕ}
    (hdecode : decode s.left = .ok (.item event used)) :
    (logReader engine subscriptions start s).1.heard =
      onEvent engine subscriptions start s.heard event := by
  have hunread : (s.pending.consume s.decoded).unread = s.left := s.pending.unread_consume _
  unfold logReader
  dsimp only
  rw [hunread, hdecode]

/-- A turn that is not the last leaves fewer of them. -/
theorem Turned.turns_lt (h : Turned engine subscriptions start s (t, none)) : t.turns < s.turns := by
  cases h with
  | took _ found used hlook hleft hsource hheard =>
    have := takes_look _ _ _ hlook
    simp only [Replay.turns, hleft, hsource, List.length_drop]
    omega
  | read _ n k cuts hlook hk hleft hsource hcuts hsub hheard =>
    have hpos := List.length_pos_iff.2 hk
    have hlen := List.length_take (i := k) (l := s.source.rest)
    simp only [Replay.turns, hleft, hsource, List.length_append, List.length_drop]
    omega
  | waited _ n cuts hlook hleft hsource hcuts hsub hheard hwaits =>
    simp only [Replay.turns, hleft, hsource]
    omega

/-- It takes what it finds off the bytes that are left of the file, or leaves them as they are. -/
theorem Turned.view (h : Turned engine subscriptions start s (t, none)) :
    (∃ found used, look s.left = .take found used ∧ t.view = s.view.drop used ∧
      t.heard = onFound engine subscriptions start s.heard found) ∨
    (t.view = s.view ∧ t.heard = s.heard) := by
  cases h with
  | took _ found used hlook hleft hsource hheard =>
    have hle := (takes_look _ _ _ hlook).2
    refine .inl ⟨found, used, hlook, ?_, hheard⟩
    rw [Replay.view, hleft, hsource, Replay.view, List.drop_append_of_le_length hle]
  | read _ n k cuts hlook hk hleft hsource hcuts hsub hheard =>
    refine .inr ⟨?_, hheard⟩
    rw [Replay.view, hleft, hsource, List.append_assoc, List.take_append_drop, Replay.view]
  | waited _ n cuts hlook hleft hsource hcuts hsub hheard hwaits =>
    exact .inr ⟨by rw [Replay.view, hleft, hsource, Replay.view], hheard⟩

/-- No error of the file comes up in a turn. -/
theorem Turned.cuts_subset (h : Turned engine subscriptions start s (t, none)) :
    t.source.cuts ⊆ s.source.cuts := by
  cases h with
  | took _ found used hlook hleft hsource hheard => rw [hsource]; exact fun _ hc => hc
  | read _ n k cuts hlook hk hleft hsource hcuts hsub hheard => rw [hsource]; exact hsub
  | waited _ n cuts hlook hleft hsource hcuts hsub hheard hwaits => rw [hsource]; exact hsub

/-- The last turn waits for more bytes than are left of the file. -/
theorem Turned.last {r : Stop} (h : Turned engine subscriptions start s (t, some r))
    (hcuts : Cut.failed ∉ s.source.cuts) :
    (∃ n, look s.view = .need n) ∧
      t.heard = (if s.view = [] then s.heard else onLost s.heard) ∧
      r = if s.view = [] then .endOfLog else .tornLog := by
  cases h with
  | failed _ e hfailed hheard => exact absurd hfailed hcuts
  | ended _ n hlook hrest hheard =>
    have hview : s.view = s.left := by rw [Replay.view, hrest, List.append_nil]
    rw [hview]
    exact ⟨⟨n, hlook⟩, hheard, rfl⟩

variable (engine subscriptions start) in
/-- **What a replay comes to is said by the bytes of its file.**  What holds of them and of what was
heard, and is kept by all that may be taken of any part of them that has come, gives the end. -/
theorem exists_end_of_view {P : Bytes → Heard → Prop} {Q : Heard → Stop → Prop}
    (takes : ∀ view heard left found used, P view heard → left <+: view →
      look left = .take found used →
      P (view.drop used) (onFound engine subscriptions start heard found))
    (ends : ∀ view heard n, P view heard → look view = .need n →
      Q (if view = [] then heard else onLost heard) (if view = [] then .endOfLog else .tornLog))
    (hsound : s.Sound) (hcuts : Cut.failed ∉ s.source.cuts) (hs : P s.view s.heard) :
    ∃ turns t stop, Loop.after (logReader engine subscriptions start) turns s = (t, some stop) ∧
      Q t.heard stop := by
  have hturn : ∀ s : Replay, (s.Sound ∧ Cut.failed ∉ s.source.cuts) ∧ P s.view s.heard →
      (∃ t, logReader engine subscriptions start s = (t, none) ∧
        ((t.Sound ∧ Cut.failed ∉ t.source.cuts) ∧ P t.view t.heard) ∧ t.turns < s.turns) ∨
      ∃ t stop, logReader engine subscriptions start s = (t, some stop) ∧ Q t.heard stop := by
    rintro s ⟨⟨hsound, hcuts⟩, hs⟩
    obtain ⟨hsound', hturned⟩ := turned engine subscriptions start hsound
    rcases hnext : logReader engine subscriptions start s with ⟨t, _ | stop⟩
    · rw [hnext] at hsound' hturned
      refine .inl ⟨t, rfl, ⟨⟨hsound', fun hf => hcuts (hturned.cuts_subset hf)⟩, ?_⟩, hturned.turns_lt⟩
      rcases hturned.view with ⟨found, used, hlook, hview, hheard⟩ | ⟨hview, hheard⟩
      · rw [hview, hheard]
        exact takes _ _ _ _ _ hs (List.prefix_append _ _) hlook
      · rwa [hview, hheard]
    · rw [hnext] at hturned
      obtain ⟨⟨n, hlook⟩, hheard, hstop⟩ := hturned.last hcuts
      refine .inr ⟨t, stop, rfl, ?_⟩
      rw [hheard, hstop]
      exact ends _ _ n hs hlook
  exact Loop.exists_end_of_turn hturn ⟨⟨hsound, hcuts⟩, hs⟩

end Turned

end LcmBus.LogFile
