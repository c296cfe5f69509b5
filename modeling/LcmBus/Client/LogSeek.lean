import LcmBus.Client.LogReader

/-!
# A start time in a log

`seek_before` of `logfile.rs`, which puts the reader at the last head in front of the start.

* `walk` and `seekBefore`: the walk from head to head, and where the reader starts behind it;
* `Comes`: a place of the file that a replay from the first byte comes to, with no event in front of
  it that the start asks for; `walk_comes`: the walk stops at such a place;
* `Replays`: what holds of a reader that is shown the whole rest of its file;
* `start_time_filters`: what a replay with a start time delivers.

`running` is set throughout the walk, and no seek of the file fails: where the walk is told to stop,
it stops at a place it has come to.
-/

namespace LcmBus.LogFile

open Log Incremental

/-- The walk from one head to the next: it is at `at_`, and the reader is to start at `from_`.  It
reads no more than `fuel` heads. -/
def walk (file : Bytes) (timestamp : Int64) : ℕ → ℕ → ℕ → ℕ
  | 0, _, from_ => from_
  | fuel + 1, at_, from_ =>
    if file.length < at_ + headerLen then from_
    else
      match peek ((file.drop at_).take headerLen) with
      | .ok (some peeked) =>
        if peeked.timestamp ≥ timestamp then at_
        else walk file timestamp fuel (at_ + peeked.len) at_
      | _ => from_

/-- `seek_before`: where the reader starts.  There are no more heads than bytes. -/
def seekBefore (file : Bytes) (timestamp : Int64) : ℕ := walk file timestamp (file.length + 1) 0 0

/-! ### The walk -/

section Walk

variable {file : Bytes} {timestamp : Int64} {fuel at_ from_ : ℕ} {h : Head}

theorem peek_take (hlen : at_ + headerLen ≤ file.length) :
    peek ((file.drop at_).take headerLen) =
      (head (file.drop at_)).map fun found => some ⟨found.timestamp, found.len⟩ := by
  have hdrop : headerLen ≤ (file.drop at_).length := by
    rw [List.length_drop]
    omega
  have htake : ((file.drop at_).take headerLen).length = headerLen := List.length_take_of_le hdrop
  rw [peek_eq htake.ge, ← head_append htake.ge ((file.drop at_).drop headerLen),
    List.take_append_drop]

/-- There is fuel for every head: more of it changes nothing. -/
theorem walk_succ (hfuel : file.length < at_ + fuel) :
    walk file timestamp (fuel + 1) at_ from_ = walk file timestamp fuel at_ from_ := by
  induction fuel generalizing at_ from_ with
  | zero => rw [walk, walk, if_pos (by omega)]
  | succ fuel ih =>
    rw [walk, walk]
    by_cases hlen : file.length < at_ + headerLen
    · rw [if_pos hlen, if_pos hlen]
    rw [if_neg hlen, if_neg hlen, peek_take (by omega)]
    cases hhead : head (file.drop at_) with
    | error e => rfl
    | ok h =>
      have hpos := (len_of_head hhead).1
      simp only [Except.map]
      rw [ih (by omega)]

/-- A head is behind an event: so the length of that event does not lie. -/
theorem behind_of_head {data : Bytes} {len : ℕ} (hhead : head (data.drop len) = .ok h) :
    Behind data len := by
  intro h4
  unfold head at hhead
  dsimp only at hhead
  split_ifs at hhead with hmagic
  have hword : word (data.drop len) 0 = magic := by simpa using hmagic
  rw [word, List.drop_zero] at hword
  rw [← hword, u32ToBe_fromBe (List.length_take_of_le h4)]

variable (file timestamp)

/-- A place a replay from the first byte comes to, with no event in front of it at or after the
start. -/
def Comes (at_ : ℕ) : Prop :=
  ∃ found, (parse look file).1 = found ++ (parse look (file.drop at_)).1 ∧
    ∀ event, .event event ∈ found → event.timestamp < timestamp

variable {file timestamp}

theorem comes_zero : Comes file timestamp 0 := ⟨[], by simp, by simp⟩

/-- From one head to the next, a replay takes the event between them. -/
theorem Comes.next (hcomes : Comes file timestamp at_) (hlen : at_ + headerLen ≤ file.length)
    (hhead : head (file.drop at_) = .ok h) (hbefore : h.timestamp < timestamp)
    (hlen' : at_ + h.len ≤ file.length) {h' : Head}
    (hhead' : head (file.drop (at_ + h.len)) = .ok h') : Comes file timestamp (at_ + h.len) := by
  obtain ⟨found, hparse, hfound⟩ := hcomes
  have hdrop : (file.drop at_).length = file.length - at_ := List.length_drop
  have hbehind : Behind (file.drop at_) h.len := by
    apply behind_of_head (h := h')
    rw [List.drop_drop, hhead']
  have hdecode := decode_of_head (by omega) hhead
  rw [if_neg (by omega), if_pos hbehind] at hdecode
  refine ⟨found ++ [foundOf (h.event (file.drop at_))], ?_, ?_⟩
  · rw [hparse, takes_look.parse_take (look_decoded hdecode), List.drop_drop]
    simp
  · intro event hevent
    rcases List.mem_append.1 hevent with hevent | hevent
    · exact hfound event hevent
    · have htime : event.timestamp = h.timestamp := by
        rw [List.mem_singleton, foundOf] at hevent
        cases hname : h.event (file.drop at_) with
        | none =>
          rw [hname] at hevent
          cases hevent
        | some event' =>
          rw [hname] at hevent
          cases hevent
          unfold Head.event at hname
          split at hname
          · cases hname
          · split_ifs at hname
            cases hname
            rfl
      rwa [htime]

/-- **The walk stops at a place a replay from the first byte comes to.** -/
theorem walk_comes (hfrom : Comes file timestamp from_)
    (hat : ∀ h, at_ + headerLen ≤ file.length → head (file.drop at_) = .ok h →
      Comes file timestamp at_) :
    Comes file timestamp (walk file timestamp fuel at_ from_) := by
  induction fuel generalizing at_ from_ with
  | zero => exact hfrom
  | succ fuel ih =>
    rw [walk]
    by_cases hlen : file.length < at_ + headerLen
    · rw [if_pos hlen]
      exact hfrom
    rw [if_neg hlen, peek_take (by omega)]
    cases hhead : head (file.drop at_) with
    | error e => exact hfrom
    | ok h =>
      have hcomes := hat h (by omega) hhead
      simp only [Except.map]
      by_cases hbefore : h.timestamp ≥ timestamp
      · rw [if_pos hbefore]
        exact hcomes
      · rw [if_neg hbefore]
        exact ih hcomes fun h' hlen' hhead' => hcomes.next (by omega) hhead
          (Int64.not_le.1 hbefore) (by omega) hhead'

variable (file timestamp) in
theorem comes_seekBefore : Comes file timestamp (seekBefore file timestamp) :=
  walk_comes comes_zero fun _ _ _ => comes_zero

end Walk

/-! ### A reader that is shown the whole rest -/

section Replays

variable {Regex : Type} (engine : Engine Regex) (subscriptions : Subscriptions Regex)
  (start : Option Int64)

/-- The events among what is found. -/
def eventsOf (found : List Found) : List Event :=
  found.filterMap fun
    | .event event => some event
    | _ => none

/-- What the handler hears of what is found. -/
def heardOf (found : List Found) : List Delivery :=
  ((eventsOf found).filter (wanted engine subscriptions start)).map deliveryOf

/-- `decode` is shown the whole rest of the file, or asks for more of it. -/
def Shown (s : Replay) : Prop := s.source.rest = [] ∨ ∃ n, decode s.left = .ok (.need n)

/-- What holds between two turns of a reader that is shown the whole rest of its file. -/
structure Replays (file : Bytes) (s : Replay) : Prop where
  sound : s.Sound
  unfailing : Cut.failed ∉ s.source.cuts
  chain : ∃ found, (parse look file).1 = found ++ (parse look s.view).1 ∧
    s.heard.delivered = heardOf engine subscriptions start found

variable {engine subscriptions start} {file : Bytes} {s t : Replay}

theorem heardOf_append (found others : List Found) :
    heardOf engine subscriptions start (found ++ others) =
      heardOf engine subscriptions start found ++ heardOf engine subscriptions start others := by
  simp [heardOf, eventsOf]

theorem delivered_onFound (heard : Heard) (found : Found) :
    (onFound engine subscriptions start heard found).delivered =
      heard.delivered ++ heardOf engine subscriptions start [found] := by
  cases found with
  | event event =>
    by_cases hwanted : wanted engine subscriptions start event = true <;>
      simp [onFound, onEvent, heardOf, eventsOf, hwanted]
  | skipped => simp [onFound, onSkip, onLost, heardOf, eventsOf]
  | slid => simp [onFound, onLost, heardOf, eventsOf]

/-- **A turn takes what is next in the whole rest of the file, or ends with it.** -/
theorem Replays.turn (h : Replays engine subscriptions start file s) (hshown : Shown s) :
    (∃ t, logReader engine subscriptions start s = (t, none) ∧
      Replays engine subscriptions start file t) ∨
    ∃ t stop, logReader engine subscriptions start s = (t, some stop) ∧
      t.heard.delivered = heardOf engine subscriptions start (parse look file).1 := by
  obtain ⟨hsound, hturned⟩ := turned engine subscriptions start h.sound
  obtain ⟨found, hparse, hheard⟩ := h.chain
  rcases hnext : logReader engine subscriptions start s with ⟨t, _ | stop⟩
  · rw [hnext] at hsound hturned
    have hunfailing : Cut.failed ∉ t.source.cuts := fun hf => h.unfailing (hturned.cuts_subset hf)
    rcases hturned.view with ⟨item, used, hlook, hview, hheard'⟩ | ⟨hview, hheard'⟩
    · have hrest : s.source.rest = [] := by
        refine hshown.resolve_right ?_
        rintro ⟨n, hneed⟩
        rw [look, hneed] at hlook
        cases hlook
      have hlook' : look s.view = .take item used := by
        rw [Replay.view, hrest, List.append_nil, hlook]
      refine .inl ⟨t, rfl, hsound, hunfailing, found ++ [item], ?_, ?_⟩
      · rw [hparse, takes_look.parse_take hlook', hview]
        simp
      · rw [hheard', delivered_onFound, hheard, heardOf_append]
    · exact .inl ⟨t, rfl, hsound, hunfailing, found, hview ▸ hparse, hheard' ▸ hheard⟩
  · rw [hnext] at hturned
    obtain ⟨⟨n, hneed⟩, hheard', -⟩ := hturned.last h.unfailing
    refine .inr ⟨t, stop, rfl, ?_⟩
    rw [parse_need hneed, List.append_nil] at hparse
    rw [hparse, ← hheard, hheard']
    split_ifs <;> rfl

/-- Where it is shown the whole rest of the file each time, a reader that came to its end has
delivered what is in the whole of it. -/
theorem Replays.ended (h : Replays engine subscriptions start file s) {n : ℕ}
    (hshown : Loop.Each (logReader engine subscriptions start) Shown n s) {stop : Stop}
    (hend : Loop.after (logReader engine subscriptions start) n s = (t, some stop)) :
    t.heard.delivered = heardOf engine subscriptions start (parse look file).1 := by
  have hlast := (Loop.after_of_turn (fun _ hs hshown => Replays.turn hs hshown) h hshown).2 stop
    (by rw [hend])
  rwa [hend] at hlast

variable (engine subscriptions start) in
/-- A reader at its start has the whole of its file in front of it. -/
theorem replays_start (file : Bytes) (floor : ℕ) {cuts : List Cut} (hcuts : Cut.failed ∉ cuts) :
    Replays engine subscriptions start file (replayOf floor ⟨file, cuts⟩) :=
  ⟨⟨le_max_left _ _, Nat.zero_le _⟩, hcuts, [], rfl, rfl⟩

/-! ### A buffer that holds the file -/

variable (engine subscriptions start) in
/-- The first turn of a reader is a read. -/
theorem first_turn {floor : ℕ} {source source' : Source} {bytes : Bytes}
    (hread : ∀ room, floor ≤ room → source.read room = (.ok bytes, source'))
    (hle : bytes.length ≤ floor) :
    (logReader engine subscriptions start (replayOf floor source)).1.source = source' ∧
    (logReader engine subscriptions start (replayOf floor source)).1.left = bytes ∧
    (bytes ≠ [] → (logReader engine subscriptions start (replayOf floor source)).2 = none) := by
  have hceiling : headerLen ≤ (ReadBuffer.withLimits floor logEventMax).ceiling := by
    have h28 := length_header
    simp only [ReadBuffer.withLimits, logEventMax]
    omega
  obtain ⟨b, hb, hempty, hfloor⟩ :=
    (ReadBuffer.withLimits floor logEventMax).reserve_of_empty rfl hceiling
  have hfloor' : floor ≤ b.floor := hfloor ▸ le_max_left _ _
  obtain ⟨b', hfill, hunread⟩ := ReadBuffer.fillFrom_of_empty hempty
    (fun room hroom => hread room (hfloor'.trans hroom)) (hle.trans hfloor')
  have hdecode : decode [] = .ok (.need headerLen) := decode_short (Nat.zero_lt_succ _)
  have hconsume : (ReadBuffer.withLimits floor logEventMax).consume 0 =
      ReadBuffer.withLimits floor logEventMax := if_pos rfl
  simp only [logReader, replayOf, hconsume, ReadBuffer.unread_withLimits, hdecode, hb, hfill]
  cases bytes with
  | nil => simp [hunread, Replay.left]
  | cons byte bytes => simp [hunread, Replay.left]

/-- A reader that has read the whole of its file is shown the rest of it each time. -/
theorem shown_of_rest (hsound : s.Sound) (hrest : s.source.rest = []) (n : ℕ) :
    Loop.Each (logReader engine subscriptions start) Shown n s := by
  refine Loop.each_true.imp (P := fun s => s.Sound ∧ s.source.rest = []) (fun s hs _ => .inl hs.2) ?_
    ⟨hsound, hrest⟩
  rintro s t ⟨hsound, hrest⟩ hturn
  obtain ⟨hsound', hturned⟩ := turned engine subscriptions start hsound
  rw [hturn] at hsound' hturned
  refine ⟨hsound', ?_⟩
  cases hturned with
  | took _ found used hlook hleft hsource hheard => rw [hsource, hrest]
  | read _ n k cuts hlook hk hleft hsource hcuts hsub hheard => simp [hrest] at hk
  | waited _ n cuts hlook hleft hsource hcuts hsub hheard hwaits => rw [hsource, hrest]

/-- And so is one whose buffer holds the file, from its first read on. -/
theorem shown_of_floor {floor : ℕ} (hfloor : file.length ≤ floor) (n : ℕ) :
    Loop.Each (logReader engine subscriptions start) Shown n (replayOf floor ⟨file, []⟩) := by
  have hread : ∀ room, floor ≤ room → (⟨file, []⟩ : Source).read room = (.ok file, ⟨[], []⟩) :=
    fun room hroom => by
      rw [Source.read]
      simp only [List.take_of_length_le (hfloor.trans hroom),
        List.drop_of_length_le (hfloor.trans hroom)]
  have hrest := (first_turn engine subscriptions start hread hfloor).1
  have hstart := replays_start engine subscriptions start file floor List.not_mem_nil
  have hsound := (turned engine subscriptions start hstart.sound).1
  cases n with
  | zero => trivial
  | succ n =>
    exact ⟨.inr ⟨_, decode_short (Nat.zero_lt_succ _)⟩,
      fun _ => shown_of_rest hsound (by rw [hrest]) n⟩

variable (engine subscriptions start) in
/-- A reader comes to its end. -/
theorem exists_end (hsound : s.Sound) : ∃ n t stop,
    Loop.after (logReader engine subscriptions start) n s = (t, some stop) := by
  refine Loop.exists_end (P := Replay.Sound) (f := Replay.turns) (fun s t hs hturn => ?_) hsound
  obtain ⟨hsound', hturned⟩ := turned engine subscriptions start hs
  rw [hturn] at hsound' hturned
  exact ⟨hsound', hturned.turns_lt⟩

end Replays

/-- `log_reader` at its start, behind `seek_before` where there is a start time. -/
def readerOf (file : Bytes) (start : Option Int64) (cuts : List Cut) : Replay :=
  match start with
  | none => logStart ⟨file, cuts⟩
  | some timestamp => logStart ⟨file.drop (seekBefore file timestamp), cuts⟩

/-! ### A start time only filters -/

section Start

variable {Regex : Type} {engine : Engine Regex} {subscriptions : Subscriptions Regex}
  {timestamp : Int64} {file : Bytes}

/-- The start takes the events that are not in front of it. -/
theorem heardOf_some (found : List Found) :
    heardOf engine subscriptions (some timestamp) found =
      (heardOf engine subscriptions none found).filter fun d => timestamp ≤ d.timestamp := by
  rw [heardOf, heardOf, List.filter_map, List.filter_filter]
  congr 2
  funext event
  by_cases hbefore : event.timestamp < timestamp
  · simp [wanted, deliveryOf, hbefore, Int64.not_le.2 hbefore]
  · simp [wanted, deliveryOf, hbefore, Int64.not_lt.1 hbefore]

/-- Of what is in front of the start it takes nothing. -/
theorem heardOf_before {found : List Found}
    (h : ∀ event, .event event ∈ found → event.timestamp < timestamp) :
    heardOf engine subscriptions (some timestamp) found = [] := by
  have hnone : ∀ event ∈ eventsOf found, ¬ wanted engine subscriptions (some timestamp) event = true := by
    intro event hevent
    obtain ⟨item, hitem, hsome⟩ := List.mem_filterMap.1 hevent
    cases item with
    | event event' =>
      cases hsome
      simp [wanted, h event hitem]
    | skipped => cases hsome
    | slid => cases hsome
  rw [heardOf, List.filter_eq_nil_iff.2 hnone, List.map_nil]

/-- **The start of a replay takes the events at or behind it, of those a full replay gives.** -/
theorem heardOf_seekBefore :
    heardOf engine subscriptions (some timestamp)
        (parse look (file.drop (seekBefore file timestamp))).1 =
      (heardOf engine subscriptions none (parse look file).1).filter
        fun d => timestamp ≤ d.timestamp := by
  obtain ⟨found, hparse, hfound⟩ := comes_seekBefore file timestamp
  rw [← heardOf_some, hparse, heardOf_append, heardOf_before hfound, List.nil_append]

/-- **A start time only filters.**  Each of two readers is shown the whole rest of its file each time:
one that has no start, and one that seeks its own first.  What the second one delivers is what the
first one does at or after the start.  A reader whose buffer holds the file is shown the rest of it
each time, and comes to its end. -/
theorem start_time_filters (engine : Engine Regex) (subscriptions : Subscriptions Regex)
    (file : Bytes) (timestamp : Int64) :
    (∀ floor floor' cuts cuts' n n' t t' stop stop', Cut.failed ∉ cuts → Cut.failed ∉ cuts' →
      Loop.Each (logReader engine subscriptions none) Shown n (replayOf floor ⟨file, cuts⟩) →
      Loop.after (logReader engine subscriptions none) n (replayOf floor ⟨file, cuts⟩) =
        (t, some stop) →
      Loop.Each (logReader engine subscriptions (some timestamp)) Shown n'
        (replayOf floor' ⟨file.drop (seekBefore file timestamp), cuts'⟩) →
      Loop.after (logReader engine subscriptions (some timestamp)) n'
        (replayOf floor' ⟨file.drop (seekBefore file timestamp), cuts'⟩) = (t', some stop') →
      t'.heard.delivered = t.heard.delivered.filter fun d => timestamp ≤ d.timestamp) ∧
    ∀ start at_, ∃ n t stop,
      Loop.Each (logReader engine subscriptions start) Shown n
        (replayOf file.length ⟨file.drop at_, []⟩) ∧
      Loop.after (logReader engine subscriptions start) n
        (replayOf file.length ⟨file.drop at_, []⟩) = (t, some stop) := by
  refine ⟨?_, fun start at_ => ?_⟩
  · intro floor floor' cuts cuts' n n' t t' stop stop' hcuts hcuts' hshown hend hshown' hend'
    rw [(replays_start _ _ _ _ _ hcuts).ended hshown hend,
      (replays_start _ _ _ _ _ hcuts').ended hshown' hend',
      heardOf_seekBefore]
  · have hstart := replays_start engine subscriptions start (file.drop at_) file.length List.not_mem_nil
    obtain ⟨n, t, stop, hend⟩ := exists_end engine subscriptions start hstart.sound
    exact ⟨n, t, stop, shown_of_floor (by simp) n, hend⟩

/-- Four events whose times do not all go up. -/
def fourEvents : Bytes :=
  let event (number timestamp : Int64) : Event := ⟨number, timestamp, ⟨"a", []⟩⟩
  [event 0 5, event 1 9, event 2 6, event 3 7].flatMap fun event =>
    (encode event).toOption.getD []

/-- A start at the last of their times: the reader is put at the first event, and delivers the second
and the last. -/
theorem start_time_filters_of_fourEvents :
    let subscriptions : Subscriptions Unit := ⟨[.name "a"]⟩
    let full := replayOf 116 ⟨fourEvents, []⟩
    let late := replayOf 116 ⟨fourEvents.drop (seekBefore fourEvents 7), []⟩
    ∃ t t', Loop.after (logReader noPatterns subscriptions none) 6 full = (t, some .endOfLog) ∧
      Loop.after (logReader noPatterns subscriptions (some 7)) 6 late = (t', some .endOfLog) ∧
      t.heard.delivered.map Delivery.timestamp = [5, 9, 6, 7] ∧
      t'.heard.delivered.map Delivery.timestamp = [9, 7] := by
  intro subscriptions full late
  have hend : (Loop.after (logReader noPatterns subscriptions none) 6 full).map
      (fun t => t.heard.delivered.map Delivery.timestamp) id =
        ([5, 9, 6, 7], some .endOfLog) := by decide +kernel
  have hend' : (Loop.after (logReader noPatterns subscriptions (some 7)) 6 late).2 =
      some .endOfLog := by decide +kernel
  rcases hafter : Loop.after (logReader noPatterns subscriptions none) 6 full with ⟨t, stop⟩
  rcases hafter' : Loop.after (logReader noPatterns subscriptions (some 7)) 6 late with ⟨t', stop'⟩
  rw [hafter, Prod.map_apply, Prod.mk.injEq] at hend
  rw [hafter'] at hend'
  obtain ⟨htimes, rfl⟩ := hend
  cases hend'
  refine ⟨t, t', rfl, rfl, htimes, ?_⟩
  have hfilters := (start_time_filters noPatterns subscriptions fourEvents 7).1 116 116 [] [] 6 6
    t t' _ _ List.not_mem_nil List.not_mem_nil (shown_of_floor (by decide +kernel) 6) hafter
    (shown_of_floor (by decide +kernel) 6) hafter'
  have hlate : ((t.heard.delivered.map Delivery.timestamp).filter fun time => (7 : Int64) ≤ time) =
      t'.heard.delivered.map Delivery.timestamp := by
    rw [hfilters, List.filter_map]
    rfl
  rw [← hlate, htimes]
  decide

end Start

end LcmBus.LogFile
