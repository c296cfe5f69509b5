import LcmBus.Client.StreamReader

/-!
# What comes of a stream, however it is cut

* `reference`: the whole of a stream taken apart by its decoder;
* `Reads`: what holds of a reader between two turns, `Reads.turn` for one turn, and `Reads.ends` for
  all of them;
* `Relay.fold_onFrame` and `Serve.fold_onRequest`: what the two readers make of the frames;
* `reads_as_parsed`: both of them, from their start to the end of the stream.
-/

namespace LcmBus

open Incremental

variable {α σ : Type}

section Reads

variable {decode : Bytes → Except WireError (Decoded α)} (atEnd : Stop) {take : σ → α → σ}
  {skip : σ → σ} {plan : Plan UInt8 (Option α) WireError} {most : ℕ} {first : σ} {stream : Bytes}
  {s t : Reading σ}

/-- What comes of a frame, or of one that is stepped over. -/
def hear (take : σ → α → σ) (skip : σ → σ) (heard : σ) : Option α → σ
  | some item => take heard item
  | none => skip heard

/-- What comes of all that is found in a stream. -/
def fold (take : σ → α → σ) (skip : σ → σ) (first : σ) (found : List (Option α)) : σ :=
  found.foldl (hear take skip) first

/-- What holds of a reader between two turns: of the whole stream it has heard the first frames, and
the others are those of what is unread and what is still to come. -/
structure Reads (plan : Plan UInt8 (Option α) WireError) (most : ℕ) (take : σ → α → σ) (skip : σ → σ)
    (first : σ) (stream : Bytes) (s : Reading σ) : Prop where
  ceiling : most ≤ s.pending.ceiling
  sound : Cut.failed ∉ s.source.cuts
  heard : ∃ found, parse plan.run stream =
      (found ++ (parse plan.run (s.pending.unread ++ s.source.rest)).1,
        (parse plan.run (s.pending.unread ++ s.source.rest)).2) ∧
    s.heard = fold take skip first found
  waiting : s.filling = true → ∃ n, plan.run s.pending.unread = .need n

/-- What a reader comes to, by the whole of its stream. -/
def outcome (plan : Plan UInt8 (Option α) WireError) (atEnd : Stop) (stream : Bytes) : Stop :=
  (parse plan.run stream).2.elim atEnd .wire

/-- The turns that are left: two for each byte that is to come, and one for each byte to take. -/
def Reading.left (s : Reading σ) : ℕ :=
  4 * s.source.rest.length + 2 * s.pending.unread.length + s.source.cuts.length +
    if s.filling then 0 else 1

/-- What was found at the front of what is unread is heard, and off it. -/
theorem Reads.consume (h : Reads plan most take skip first stream s) (hstable : Stable plan.run)
    (hfilling : s.filling = false) {item : Option α} {used : ℕ}
    (hrun : plan.run s.pending.unread = .take item used) {heard : σ}
    (hheard : heard = hear take skip s.heard item) :
    Reads plan most take skip first stream { s with pending := s.pending.consume used, heard } ∧
      Reading.left { s with pending := s.pending.consume used, heard } < s.left := by
  obtain ⟨found, hparse, hfound⟩ := h.heard
  obtain ⟨hpos, hle⟩ := hstable.take_bounds hrun
  have hunread := s.pending.unread_consume used
  refine ⟨⟨by simpa using h.ceiling, h.sound, ⟨found ++ [item], ?_, ?_⟩, by simp [hfilling]⟩, ?_⟩
  · rw [hparse, hstable.parse_take hrun, hunread]
    simp
  · rw [fold, List.foldl_append, hheard, hfound]
    rfl
  · simp only [Reading.left, hunread, List.length_drop]
    omega

/-- **A turn takes what is next in the stream, or ends where the stream does.** -/
theorem Reads.turn (h : Reads plan most take skip first stream s)
    (hplan : ∀ data, answer (decode data) = plan.run data) (hfits : plan.Fits most 0) :
    (∃ t, readTurn decode atEnd take skip s = (t, none) ∧
      Reads plan most take skip first stream t ∧ t.left < s.left) ∨
    ∃ t, readTurn decode atEnd take skip s = (t, some (outcome plan atEnd stream)) ∧
      t.heard = fold take skip first (parse plan.run stream).1 := by
  have hstable := hfits.stable
  obtain ⟨found, hparse, hfound⟩ := h.heard
  cases hfilling : s.filling with
  | true =>
    obtain ⟨n, hneed⟩ := h.waiting hfilling
    have hroom : s.pending.unread.length < s.pending.ceiling :=
      (hstable.need_gt hneed).trans_le ((hfits.need_le hneed).trans h.ceiling)
    obtain ⟨k, pending, cuts, hfill, hk, hunread, hceiling, hcuts, hsub⟩ |
      ⟨e, pending, cuts, hfill, hunread, hceiling, hcuts, hsub, he⟩ :=
      ReadBuffer.fillFrom_cases s.source hroom
    · cases hlen : (s.source.rest.take k).length with
      | zero =>
        -- The stream is at its end, with what is unread less than a frame.
        have hrest : s.source.rest = [] := by
          rw [List.length_take] at hlen
          exact List.length_eq_zero_iff.1 (by omega)
        have hend : parse plan.run (s.pending.unread ++ s.source.rest) = ([], none) := by
          rw [hrest, List.append_nil, parse_need hneed]
        rw [hend, List.append_nil] at hparse
        refine .inr ⟨{ s with pending, source := ⟨s.source.rest.drop k, cuts⟩ }, ?_, ?_⟩
        · rw [readTurn, if_pos hfilling, hfill, hlen, outcome, hparse]
          rfl
        · rw [hparse]
          exact hfound
      | succ m =>
        refine .inl ⟨{ s with pending, source := ⟨s.source.rest.drop k, cuts⟩, filling := false },
          ?_, ⟨hceiling ▸ h.ceiling, fun hf => h.sound (hsub hf), ⟨found, ?_, hfound⟩, by simp⟩, ?_⟩
        · rw [readTurn, if_pos hfilling, hfill, hlen]
          rfl
        · rw [hparse, hunread, List.append_assoc, List.take_append_drop]
        · have hdrop := List.length_drop (i := k) (l := s.source.rest)
          simp only [Reading.left, hunread, List.length_append, hfilling]
          rw [List.length_take] at hlen
          simp
          omega
    · have htimeout : isTimeout e = true := by
        by_contra hfailed
        rw [if_neg hfailed] at he
        exact h.sound he
      refine .inl ⟨{ s with pending, source := ⟨s.source.rest, cuts⟩ }, ?_,
        ⟨hceiling ▸ h.ceiling, fun hf => h.sound (hsub hf), ⟨found, ?_, hfound⟩, fun _ => ⟨n, ?_⟩⟩, ?_⟩
      · rw [readTurn, if_pos hfilling, hfill]
        simp [htimeout]
      · rw [hparse, hunread]
      · rw [hunread, hneed]
      · simp only [Reading.left, hunread]
        omega
  | false =>
    have hrun := hplan s.pending.unread
    cases hdecode : decode s.pending.unread with
    | ok decoded =>
      cases decoded with
      | item item used =>
        rw [hdecode] at hrun
        obtain ⟨hreads, hleft⟩ := h.consume hstable hfilling hrun.symm rfl
        exact .inl ⟨_, by simp [readTurn, hfilling, hdecode, hear], hreads, hleft⟩
      | skip bytes =>
        rw [hdecode] at hrun
        obtain ⟨hreads, hleft⟩ := h.consume hstable hfilling hrun.symm rfl
        exact .inl ⟨_, by simp [readTurn, hfilling, hdecode, hear], hreads, hleft⟩
      | need bytes =>
        rw [hdecode] at hrun
        obtain ⟨pending, hreserve, hunread, hceiling⟩ :=
          s.pending.reserve_of_le ((hfits.need_le hrun.symm).trans h.ceiling)
        refine .inl ⟨{ s with pending, filling := true }, ?_,
          ⟨hceiling ▸ h.ceiling, h.sound, ⟨found, ?_, hfound⟩, fun _ => ⟨bytes, ?_⟩⟩, ?_⟩
        · simp [readTurn, hfilling, hdecode, hreserve]
        · rw [hparse, hunread]
        · rw [hunread, ← hrun]
          rfl
        · simp [Reading.left, hunread, hfilling]
    | error e =>
      rw [hdecode] at hrun
      have hfail := hstable.parse_fail hrun.symm s.source.rest
      rw [hfail, List.append_nil] at hparse
      refine .inr ⟨s, ?_, ?_⟩
      · rw [readTurn, if_neg (by simp [hfilling]), hdecode, outcome, hparse]
        rfl
      · rw [hparse]
        exact hfound

/-- Behind any number of turns the reader is still to go on, or it came to what the whole of its
stream holds. -/
theorem Reads.after (h : Reads plan most take skip first stream s)
    (hplan : ∀ data, answer (decode data) = plan.run data) (hfits : plan.Fits most 0) (turns : ℕ) :
    ((Loop.after (readTurn decode atEnd take skip) turns s).2 = none →
      Reads plan most take skip first stream
        (Loop.after (readTurn decode atEnd take skip) turns s).1) ∧
    ∀ r, (Loop.after (readTurn decode atEnd take skip) turns s).2 = some r →
      r = outcome plan atEnd stream ∧
        (Loop.after (readTurn decode atEnd take skip) turns s).1.heard =
          fold take skip first (parse plan.run stream).1 := by
  refine Loop.after_of_turn (C := fun _ => True) (Q := fun t r => r = outcome plan atEnd stream ∧
    t.heard = fold take skip first (parse plan.run stream).1) (fun s hs _ => ?_) h Loop.each_true
  rcases hs.turn atEnd hplan hfits with ⟨t, hturn, hreads, -⟩ | ⟨t, hturn, hheard⟩
  · exact .inl ⟨t, hturn, hreads⟩
  · exact .inr ⟨t, _, hturn, rfl, hheard⟩

/-- **A reader comes to the end of its stream, with what the whole of it holds.** -/
theorem Reads.ends (h : Reads plan most take skip first stream s)
    (hplan : ∀ data, answer (decode data) = plan.run data) (hfits : plan.Fits most 0) :
    ∃ turns t, Loop.after (readTurn decode atEnd take skip) turns s =
        (t, some (outcome plan atEnd stream)) ∧
      t.heard = fold take skip first (parse plan.run stream).1 := by
  have hturn : ∀ s, Reads plan most take skip first stream s →
      (∃ t, readTurn decode atEnd take skip s = (t, none) ∧
        Reads plan most take skip first stream t ∧ t.left < s.left) ∨
      ∃ t r, readTurn decode atEnd take skip s = (t, some r) ∧
        r = outcome plan atEnd stream ∧ t.heard = fold take skip first (parse plan.run stream).1 :=
    fun s hs => (hs.turn atEnd hplan hfits).imp_right fun ⟨t, hturn, hheard⟩ =>
      ⟨t, _, hturn, rfl, hheard⟩
  obtain ⟨turns, t, r, hend, rfl, hheard⟩ := Loop.exists_end_of_turn hturn h
  exact ⟨turns, t, hend, hheard⟩

/-- The buffer of a reader refuses it nothing: it has room where it reads, and takes what the decoder
asks for. -/
def Reading.Roomy (decode : Bytes → Except WireError (Decoded α)) (s : Reading σ) : Prop :=
  (s.filling = true → 0 < s.pending.makeRoom.room) ∧
    ∀ bytes, decode s.pending.unread = .ok (.need bytes) → (s.pending.reserve bytes).isSome = true

theorem Reads.roomy (h : Reads plan most take skip first stream s)
    (hplan : ∀ data, answer (decode data) = plan.run data) (hfits : plan.Fits most 0) :
    s.Roomy decode := by
  refine ⟨fun hfilling => ?_, fun bytes hdecode => ?_⟩
  · obtain ⟨n, hneed⟩ := h.waiting hfilling
    exact s.pending.room_pos
      ((hfits.stable.need_gt hneed).trans_le ((hfits.need_le hneed).trans h.ceiling))
  · have hrun := hplan s.pending.unread
    rw [hdecode] at hrun
    obtain ⟨pending, hreserve, -⟩ :=
      s.pending.reserve_of_le ((hfits.need_le hrun.symm).trans h.ceiling)
    rw [hreserve]
    rfl

/-- A reader at its start has the whole of its stream in front of it. -/
theorem reads_start {floor : ℕ} {cuts : List Cut} (hcuts : Cut.failed ∉ cuts)
    (hstart : ∃ n, plan.run [] = .need n) :
    Reads plan most take skip first stream (.start floor most ⟨stream, cuts⟩ first) :=
  ⟨le_max_left _ _, hcuts, ⟨[], by simp [Reading.start], rfl⟩, fun _ => hstart⟩

end Reads

/-- The whole of a stream taken apart by a decoder that is asked again and again, with the error that
ends it. -/
def reference (decode : Bytes → Except WireError (Decoded α)) (stream : Bytes) :
    List (Option α) × Option WireError :=
  parse (fun data => answer (decode data)) stream

theorem reference_eq {decode : Bytes → Except WireError (Decoded α)}
    {plan : Plan UInt8 (Option α) WireError} (hplan : ∀ data, answer (decode data) = plan.run data)
    (stream : Bytes) : reference decode stream = parse plan.run stream := by
  rw [reference, funext hplan]

/-! ### What the two readers make of it -/

namespace Relay

variable {Regex : Type} {engine : Engine Regex} {subscriptions : Subscriptions Regex}

/-- The handler hears the frames that are selected, and each thing that was found is counted. -/
theorem fold_onFrame (heard : Heard) (found : List (Option Frame)) :
    fold (onFrame engine subscriptions) onSkip heard found =
      ⟨⟨heard.counters.received + found.length,
          heard.counters.delivered + (found.reduceOption.filter
            fun frame => subscriptions.selects engine frame.channel).length,
          heard.counters.discarded + (found.length - (found.reduceOption.filter
            fun frame => subscriptions.selects engine frame.channel).length)⟩,
        heard.delivered ++ found.reduceOption.filter
          fun frame => subscriptions.selects engine frame.channel⟩ := by
  induction found generalizing heard with
  | nil => simp [fold]
  | cons item found ih =>
    have hle : (found.reduceOption.filter
        fun frame => subscriptions.selects engine frame.channel).length ≤ found.length :=
      (List.length_filter_le _ _).trans (List.reduceOption_length_le found)
    rw [fold, List.foldl_cons, ← fold, ih]
    cases item with
    | none =>
      simp [hear, onSkip]
      omega
    | some frame =>
      by_cases hselects : subscriptions.selects engine frame.channel
      · simp [hear, onFrame, hselects]
        omega
      · simp [hear, onFrame, hselects]
        omega

end Relay

namespace Tcpq

/-- What is found in a request is a frame that can be published. -/
def Request.Publishable : Request → Prop
  | .publish frame => ∃ encoded, Tcpq.publish frame = .ok encoded
  | _ => True

theorem publish_of_valid {frame : Frame} (hchannel : checkChannel frame.channel maxChannelLen = .ok ())
    (hpayload : frame.payload.length ≤ maxMessageLen) : ∃ encoded, publish frame = .ok encoded := by
  refine ⟨u32ToBe messageTypePublish ++ lengthPrefixed (asBytes frame.channel) ++
    lengthPrefixed frame.payload, ?_⟩
  rw [publish, hchannel, if_neg (not_lt.2 hpayload)]
  rfl

theorem finds_requestPlan :
    requestPlan.Finds fun found => ∀ request, found = some request → request.Publishable := by
  intro data _
  dsimp only
  split_ifs
  · trivial
  · trivial
  · intro pattern _
    unfold patternEnd
    split
    · simp [Plan.Finds]
    · rintro request ⟨⟩
      split_ifs
      · exact trivial
      · exact trivial
  · intro body _
    dsimp only
    split_ifs with hlong
    · trivial
    · intro frame _
      unfold frameEnd
      split
      · simp [Plan.Finds]
      · split_ifs with hchannel
        · simp [Plan.Finds]
        · rintro request ⟨⟩
          refine publish_of_valid (by simpa using hchannel) ?_
          rw [List.length_take]
          omega

end Tcpq

namespace Serve

variable {Regex : Type} {engine : Engine Regex}

/-- Each request that was found is acted on. -/
theorem fold_onRequest (acted : Acted Regex) {found : List (Option Tcpq.Request)}
    (h : ∀ item ∈ found, ∀ request, item = some request → request.Publishable) :
    (fold (onRequest engine) id acted found).requests = acted.requests ++ found.reduceOption := by
  induction found generalizing acted with
  | nil => simp [fold]
  | cons item found ih =>
    have hrest := fun acted => ih acted fun item hitem => h item (List.mem_cons_of_mem _ hitem)
    rw [fold, List.foldl_cons, ← fold, hrest]
    cases item with
    | none => simp [hear]
    | some request =>
      cases request with
      | subscribe pattern => simp [hear, onRequest]
      | unsubscribe pattern => simp [hear, onRequest]
      | publish frame =>
        obtain ⟨encoded, hencoded⟩ := h _ List.mem_cons_self _ rfl
        simp [hear, onRequest, hencoded]

end Serve

/-- **The two readers of a stream do not see how it is cut.**  Each comes to its end with what the
whole stream holds for its decoder, in that order, each once, and with the error its decoder meets,
where it meets one; and no frame is refused for the room of the buffer.  A client hands on the frames
its subscriptions select, and counts all that it found; a relay acts on each request. -/
theorem reads_as_parsed {Regex : Type} (engine : Engine Regex) (subscriptions : Subscriptions Regex)
    (torn : Option IoError) (stream : Bytes) (cuts : List Cut) (hcuts : Cut.failed ∉ cuts) :
    ((∃ turns t, Loop.after (Relay.tcpqReader engine subscriptions torn) turns
          (Relay.tcpqStart ⟨stream, cuts⟩) =
        (t, some ((reference Tcpq.decode stream).2.elim (torn.elim .closed .io) .wire)) ∧
      t.heard.delivered = (reference Tcpq.decode stream).1.reduceOption.filter
        (fun frame => subscriptions.selects engine frame.channel) ∧
      t.heard.counters.received = (reference Tcpq.decode stream).1.length ∧
      t.heard.counters.received = t.heard.counters.delivered + t.heard.counters.discarded) ∧
    ∀ turns s, Loop.after (Relay.tcpqReader engine subscriptions torn) turns
      (Relay.tcpqStart ⟨stream, cuts⟩) = (s, none) → s.Roomy Tcpq.decode) ∧
    (∃ turns t, Loop.after (Serve.peerReader engine) turns (Serve.peerStart ⟨stream, cuts⟩) =
        (t, some ((reference Tcpq.decodeRequest stream).2.elim .closed .wire)) ∧
      t.heard.requests = (reference Tcpq.decodeRequest stream).1.reduceOption) ∧
    ∀ turns s, Loop.after (Serve.peerReader engine) turns (Serve.peerStart ⟨stream, cuts⟩) =
      (s, none) → s.Roomy Tcpq.decodeRequest := by
  have hclient : Reads Tcpq.framePlan Tcpq.frameMax (Relay.onFrame engine subscriptions) Relay.onSkip
      ⟨.zero, []⟩ stream (Relay.tcpqStart ⟨stream, cuts⟩) := reads_start hcuts ⟨_, rfl⟩
  have hrelay : Reads Tcpq.requestPlan Tcpq.frameMax (Serve.onRequest engine) id ⟨[], .new, []⟩ stream
      (Serve.peerStart ⟨stream, cuts⟩) := reads_start hcuts ⟨_, rfl⟩
  refine ⟨⟨?_, fun turns s hs => ?_⟩, ?_, fun turns s hs => ?_⟩
  · obtain ⟨turns, t, hend, hheard⟩ := hclient.ends (torn.elim .closed .io) Tcpq.answer_decode
      Tcpq.fits_framePlan
    rw [reference_eq Tcpq.answer_decode]
    have hle := (List.length_filter_le (fun frame => subscriptions.selects engine frame.channel)
      (parse Tcpq.framePlan.run stream).1.reduceOption).trans (List.reduceOption_length_le _)
    refine ⟨turns, t, hend, ?_, ?_, ?_⟩ <;> rw [hheard, Relay.fold_onFrame] <;>
      simp [Counters.zero]
    omega
  · have hreads := (hclient.after (torn.elim .closed .io) Tcpq.answer_decode Tcpq.fits_framePlan
      turns).1
    exact (hs ▸ hreads) rfl |>.roomy Tcpq.answer_decode Tcpq.fits_framePlan
  · obtain ⟨turns, t, hend, hheard⟩ := hrelay.ends .closed Tcpq.answer_decodeRequest
      Tcpq.fits_requestPlan
    rw [reference_eq Tcpq.answer_decodeRequest]
    refine ⟨turns, t, hend, ?_⟩
    rw [hheard, Serve.fold_onRequest _ (forall_mem_parse (fun _ _ _ hrun =>
      Tcpq.finds_requestPlan.of_run hrun) stream)]
    rfl
  · have hreads := (hrelay.after .closed Tcpq.answer_decodeRequest Tcpq.fits_requestPlan turns).1
    exact (hs ▸ hreads) rfl |>.roomy Tcpq.answer_decodeRequest Tcpq.fits_requestPlan

/-- One frame, and the head of one of a type no side sends. -/
def frameAndHead : Bytes :=
  [0, 0, 0, 1, 0, 0, 0, 1, 0x61, 0, 0, 0, 1, 7, 0, 0, 0, 9, 0, 0, 0, 0]

/-- That stream in a read of nine bytes, one that waits, one of a byte, and one of the rest. -/
theorem reads_as_parsed_of_frameAndHead : ∃ turns t,
    Loop.after (Relay.tcpqReader noPatterns ⟨[.name "a"]⟩ none) turns
        (Relay.tcpqStart ⟨frameAndHead, [.bytes 8, .timedOut, .bytes 0]⟩) =
      (t, some (.wire (.unknownFrameType 9))) ∧
    t.heard.delivered = [⟨"a", [7]⟩] ∧ t.heard.counters.received = 1 := by
  have hparsed : reference Tcpq.decode frameAndHead =
      ([some ⟨"a", [7]⟩], some (.unknownFrameType 9)) := by decide +kernel
  obtain ⟨turns, t, hend, hdelivered, hreceived, -⟩ :=
    (reads_as_parsed noPatterns ⟨[.name "a"]⟩ none frameAndHead
      [.bytes 8, .timedOut, .bytes 0] (by decide)).1.1
  rw [hparsed] at hend hdelivered hreceived
  exact ⟨turns, t, hend, hdelivered, hreceived⟩

end LcmBus
