import LcmBus.Client.LogReader
import LcmBus.Wire.LogEntries

/-!
# A log that is cut

* `Cutting`: what holds of the reader of a log that is cut between two turns, and `Cutting.turn` for
  one turn;
* `cut_replays_whole`: what the reader makes of a log of any entries, cut at any byte, however the
  reads split it.
-/

namespace LcmBus.LogFile

open Log Incremental

variable {Regex : Type} {engine : Engine Regex} {subscriptions : Subscriptions Regex}
  {start : Option Int64}

/-! ### What a part of a log gives -/

/-- At the front of what has come of an entry, and of any bytes behind it, the reader waits, or it
finds the entry where a sync word is behind it, and slides where none is. -/
theorem look_entry {e : Entry} {r l : Bytes} (h : l <+: e.bytes ++ r) :
    (l.length < e.bytes.length ∧ ∃ n, look l = .need n) ∨
    (e.bytes.length ≤ l.length ∧ look l = if Behind l e.bytes.length
      then .take (foundOf e.event) e.bytes.length else .take .slid (slide l)) := by
  rcases decode_entry h with ⟨hshort, n, hneed⟩ | ⟨r', -, rfl, hevent, hdecode⟩
  · exact .inl ⟨hshort, n, by rw [look, hneed]⟩
  · refine .inr ⟨by simp, ?_⟩
    split_ifs at hdecode ⊢ with hbehind
    · rw [look_decoded hdecode, hevent, e.length_bytes]
    · rw [look, hdecode]

/-- Where a sync word is behind the entry it does not slide. -/
theorem look_entry_of_sync {e : Entry} {r l : Bytes} (h : l <+: e.bytes ++ r)
    (hr : 4 ≤ r.length → SyncAt r 0) :
    (l.length < e.bytes.length ∧ ∃ n, look l = .need n) ∨
    (e.bytes.length ≤ l.length ∧ look l = .take (foundOf e.event) e.bytes.length) := by
  refine (look_entry h).imp_right fun ⟨hlong, hlook⟩ => ⟨hlong, ?_⟩
  obtain ⟨r', rfl⟩ : e.bytes <+: l := List.prefix_of_prefix_length_le (List.prefix_append _ _) h hlong
  rwa [if_pos (behind_of_part ((List.prefix_append_right_inj _).1 h) hr)] at hlook

/-- At the front of a part of a log the reader finds the first entry, or waits. -/
theorem look_entries {e : Entry} {entries : List Entry} {l : Bytes}
    (h : l <+: bytesOf (e :: entries)) :
    (l.length < e.bytes.length ∧ ∃ n, look l = .need n) ∨
    (e.bytes.length ≤ l.length ∧ look l = .take (foundOf e.event) e.bytes.length) :=
  look_entry_of_sync h syncAt_bytesOf

/-- An entry that is all there is not waited for. -/
theorem look_whole_ne_need {e : Entry} {r : Bytes} {n : ℕ} : look (e.bytes ++ r) ≠ .need n := by
  rcases look_entry (List.prefix_rfl (l := e.bytes ++ r)) with ⟨hshort, -⟩ | ⟨-, hlook⟩
  · rw [List.length_append] at hshort
    omega
  · rw [hlook]
    split_ifs <;> simp

/-- What comes of the entries that are whole. -/
def foldEntries (engine : Engine Regex) (subscriptions : Subscriptions Regex)
    (start : Option Int64) (heard : Heard) (entries : List Entry) : Heard :=
  entries.foldl (fun heard e => onFound engine subscriptions start heard (foundOf e.event)) heard

/-- What holds of the reader of a log that is cut: what it has not taken is a log of entries and its
cut, and of the others each one that is whole was heard. -/
structure Cutting (engine : Engine Regex) (subscriptions : Subscriptions Regex)
    (start : Option Int64) (first : Heard) (entries : List Entry) (cut : ℕ) (s : Replay) : Prop where
  sound : s.Sound
  unfailing : Cut.failed ∉ s.source.cuts
  chain : ∃ done rest cut', whole entries cut = done ++ whole rest cut' ∧
    (bytesOf entries).take cut = bytesOf done ++ s.view ∧ s.view = (bytesOf rest).take cut' ∧
    s.heard = foldEntries engine subscriptions start first done

variable {first : Heard} {entries : List Entry} {cut : ℕ} {s t : Replay}

/-- At the end of the loop all that is whole was heard, and what is over is no whole entry. -/
def Ended (engine : Engine Regex) (subscriptions : Subscriptions Regex) (start : Option Int64)
    (first : Heard) (entries : List Entry) (cut : ℕ) (t : Replay) (stop : Stop) : Prop :=
  let heard := foldEntries engine subscriptions start first (whole entries cut)
  if bytesOf (whole entries cut) = (bytesOf entries).take cut then
    stop = .endOfLog ∧ t.heard = heard
  else stop = .tornLog ∧ t.heard = onLost heard

/-- Where the reader finds nothing and there is no more to come, no entry is whole. -/
theorem whole_of_need {rest : List Entry} {cut n : ℕ} (hneed : look ((bytesOf rest).take cut) = .need n) :
    whole rest cut = [] := by
  cases rest with
  | nil => rfl
  | cons e rest =>
    rw [whole, if_neg]
    intro hle
    rcases look_entries (List.take_prefix cut (bytesOf (e :: rest))) with ⟨hshort, -⟩ | ⟨-, htake⟩
    · rw [List.length_take, bytesOf_cons, List.length_append] at hshort
      omega
    · rw [hneed] at htake
      cases htake

/-- What the reader takes is an entry that is whole. -/
theorem Cutting.took (h : Cutting engine subscriptions start first entries cut s) (hsound : t.Sound)
    (hunfailing : Cut.failed ∉ t.source.cuts) {found : Found} {used : ℕ}
    (hlook : look s.left = .take found used) (hview : t.view = s.view.drop used)
    (hheard : t.heard = onFound engine subscriptions start s.heard found) :
    Cutting engine subscriptions start first entries cut t := by
  obtain ⟨done, rest, cut', hwhole, hbytes, hrest, hfirst⟩ := h.chain
  have hprefix : s.left <+: bytesOf rest := by
    have hleft : s.left <+: s.view := List.prefix_append _ _
    rw [hrest] at hleft
    exact hleft.trans (List.take_prefix _ _)
  cases rest with
  | nil =>
    rw [List.prefix_nil.1 hprefix] at hlook
    cases hlook
  | cons e rest =>
    rcases look_entries hprefix with ⟨-, n, hneed⟩ | ⟨hlong, htake⟩
    · rw [hneed] at hlook
      cases hlook
    rw [htake] at hlook
    cases hlook
    have hcut : e.bytes.length ≤ cut' := by
      have hlen := congrArg List.length hrest
      rw [List.length_take, Replay.view, List.length_append] at hlen
      omega
    have hsplit : s.view = e.bytes ++ (bytesOf rest).take (cut' - e.bytes.length) := by
      rw [hrest, bytesOf_cons, List.take_append, List.take_of_length_le hcut]
    rw [hsplit, List.drop_left] at hview
    refine ⟨hsound, hunfailing, done ++ [e], rest, cut' - e.bytes.length, ?_, ?_, hview, ?_⟩
    · rw [hwhole, whole, if_pos hcut]
      simp
    · rw [hbytes, hsplit, hview]
      simp
    · rw [hheard, hfirst, foldEntries, foldEntries, List.foldl_append]
      rfl

/-- **A turn of the reader takes the next entry whole, or ends where none is left.** -/
theorem Cutting.turn (h : Cutting engine subscriptions start first entries cut s) :
    (∃ t, logReader engine subscriptions start s = (t, none) ∧
      Cutting engine subscriptions start first entries cut t ∧ t.turns < s.turns) ∨
    ∃ t stop, logReader engine subscriptions start s = (t, some stop) ∧
      Ended engine subscriptions start first entries cut t stop := by
  obtain ⟨hsound, hturned⟩ := turned engine subscriptions start h.sound
  obtain ⟨done, rest, cut', hwhole, hbytes, hrest, hfirst⟩ := h.chain
  rcases hnext : logReader engine subscriptions start s with ⟨t, _ | stop⟩
  · rw [hnext] at hsound hturned
    have hunfailing : Cut.failed ∉ t.source.cuts := fun hf => h.unfailing (hturned.cuts_subset hf)
    refine .inl ⟨t, rfl, ?_, hturned.turns_lt⟩
    rcases hturned.view with ⟨found, used, hlook, hview, hheard⟩ | ⟨hview, hheard⟩
    · exact h.took hsound hunfailing hlook hview hheard
    · exact ⟨hsound, hunfailing, done, rest, cut', hwhole, hview ▸ hbytes, hview.trans hrest,
        hheard.trans hfirst⟩
  · rw [hnext] at hturned
    obtain ⟨⟨n, hneed⟩, hheard, hstop⟩ := hturned.last h.unfailing
    refine .inr ⟨t, stop, rfl, ?_⟩
    have hnone : whole rest cut' = [] := whole_of_need (n := n) (hrest ▸ hneed)
    rw [hnone, List.append_nil] at hwhole
    rw [Ended, hwhole, hbytes, ← hfirst, hheard, hstop]
    by_cases hempty : s.view = []
    · simp [hempty]
    · simp [hempty]

/-- The reader of a log that is cut comes to its end. -/
theorem Cutting.ends (h : Cutting engine subscriptions start first entries cut s) :
    ∃ turns t stop, Loop.after (logReader engine subscriptions start) turns s = (t, some stop) ∧
      Ended engine subscriptions start first entries cut t stop :=
  Loop.exists_end_of_turn (fun _ h => h.turn) h

/-- A reader at its start has the whole of its log in front of it. -/
theorem cutting_start {cuts : List Cut} (hcuts : Cut.failed ∉ cuts) :
    Cutting engine subscriptions start ⟨.zero, []⟩ entries cut
      (logStart ⟨(bytesOf entries).take cut, cuts⟩) :=
  ⟨⟨le_max_left _ _, Nat.zero_le _⟩, hcuts, [], entries, cut, rfl, rfl, rfl, rfl⟩

/-! ### What comes of the entries -/

/-- The handler hears the events that are wanted, and each entry is counted. -/
theorem foldEntries_eq (heard : Heard) (entries : List Entry) :
    foldEntries engine subscriptions start heard entries =
      ⟨⟨heard.counters.received + entries.length,
          heard.counters.delivered +
            ((entries.filterMap Entry.event).filter (wanted engine subscriptions start)).length,
          heard.counters.discarded + entries.countP fun e => e.event.isNone⟩,
        heard.delivered ++
          ((entries.filterMap Entry.event).filter (wanted engine subscriptions start)).map
            deliveryOf⟩ := by
  induction entries generalizing heard with
  | nil => simp [foldEntries]
  | cons e entries ih =>
    rw [foldEntries, List.foldl_cons, ← foldEntries, ih]
    cases hevent : e.event with
    | none =>
      simp [onFound, foundOf, onSkip, onLost, hevent]
      omega
    | some event =>
      by_cases hwanted : wanted engine subscriptions start event = true
      · simp [onFound, foundOf, onEvent, hevent, hwanted]
        omega
      · simp [onFound, foundOf, onEvent, hevent, hwanted]
        omega

theorem whole_isPrefix (entries : List Entry) (cut : ℕ) : whole entries cut <+: entries := by
  induction entries generalizing cut with
  | nil => exact List.prefix_rfl
  | cons e entries ih =>
    rw [whole]
    split_ifs
    · exact List.cons_prefix_cons.2 ⟨rfl, ih _⟩
    · exact List.nil_prefix

/-- Whether a log is cut on a boundary. -/
theorem bytesOf_whole_iff {entries : List Entry} {cut : ℕ} :
    bytesOf (whole entries cut) = (bytesOf entries).take cut ↔
      ∃ k, (bytesOf entries).take cut = bytesOf (entries.take k) := by
  constructor
  · intro h
    refine ⟨(whole entries cut).length, ?_⟩
    rw [← h, ← List.prefix_iff_eq_take.1 (whole_isPrefix entries cut)]
  · rintro ⟨k, hk⟩
    induction entries generalizing cut k with
    | nil => simp [whole]
    | cons e entries ih =>
      have hpos := e.headerLen_lt
      cases k with
      | zero =>
        have hlen := congrArg List.length hk
        simp only [bytesOf_cons, List.length_take, List.length_append, List.take_zero, bytesOf_nil,
          List.length_nil] at hlen
        rw [whole, if_neg (by omega), hk]
        rfl
      | succ k =>
        have hcut : e.bytes.length ≤ cut := by
          have hlen := congrArg List.length hk
          simp only [List.take_succ_cons, bytesOf_cons, List.length_take, List.length_append] at hlen
          omega
        rw [whole, if_pos hcut, bytesOf_cons, bytesOf_cons, List.take_append,
          List.take_of_length_le hcut]
        rw [List.take_succ_cons, bytesOf_cons, bytesOf_cons, List.take_append,
          List.take_of_length_le hcut] at hk
        rw [ih k (List.append_cancel_left hk)]

/-- **A log that is cut anywhere replays its whole events and nothing else**, whatever its entries
hold and however the reads split it. -/
theorem cut_replays_whole (engine : Engine Regex) (subscriptions : Subscriptions Regex)
    (entries : List Entry) (cut : ℕ) (cuts : List Cut) (hcuts : Cut.failed ∉ cuts) :
    ∃ turns t stop, Loop.after (logReader engine subscriptions none) turns
        (logStart ⟨(bytesOf entries).take cut, cuts⟩) = (t, some stop) ∧
      t.heard.delivered = (((whole entries cut).filterMap Entry.event).filter
        fun event => subscriptions.selects engine event.frame.channel).map deliveryOf ∧
      t.heard.counters.received = (whole entries cut).length ∧
      t.heard.counters.delivered = t.heard.delivered.length ∧
      t.heard.counters.discarded = (whole entries cut).countP (fun e => e.event.isNone) +
        (if stop = .tornLog then 1 else 0) ∧
      ((∃ k, (bytesOf entries).take cut = bytesOf (entries.take k)) → stop = .endOfLog) ∧
      ((¬ ∃ k, (bytesOf entries).take cut = bytesOf (entries.take k)) → stop = .tornLog) := by
  have hstart : Cutting engine subscriptions none _ entries cut _ := cutting_start hcuts
  obtain ⟨turns, t, stop, hend, hended⟩ := hstart.ends
  refine ⟨turns, t, stop, hend, ?_⟩
  rw [Ended] at hended
  rw [← bytesOf_whole_iff]
  rw [foldEntries_eq, wanted_none] at hended
  split_ifs at hended with hboundary
  · obtain ⟨rfl, hheard⟩ := hended
    simp [hheard, hboundary, Counters.zero]
  · obtain ⟨rfl, hheard⟩ := hended
    simp [hheard, hboundary, Counters.zero, onLost]

/-- An event with a sync word in its payload, and one with a name that is none. -/
def markedAndNameless : List Entry :=
  [⟨0, 5, [0x61], [0xed, 0xa1, 0xda, 0x01, 7], by decide, by decide, by decide⟩,
    ⟨1, 6, [0xff], [], by decide, by decide, by decide⟩,
    ⟨2, 7, [0x61], [8], by decide, by decide, by decide⟩]

/-- That log, cut in its last event, in a read of nine bytes, one that waits, and one of the rest. -/
theorem cut_replays_whole_of_markedAndNameless : ∃ turns t,
    Loop.after (logReader noPatterns ⟨[.name "a"]⟩ none) turns
        (logStart ⟨(bytesOf markedAndNameless).take 70, [.bytes 8, .timedOut]⟩) = (t, some .tornLog) ∧
      t.heard.delivered = [⟨⟨"a", [0xed, 0xa1, 0xda, 0x01, 7]⟩, 5, 0⟩] := by
  obtain ⟨turns, t, stop, hend, hdelivered, -, -, -, -, htorn⟩ := cut_replays_whole noPatterns
    ⟨[.name "a"]⟩ markedAndNameless 70 [.bytes 8, .timedOut] (by decide)
  have hcut : ¬ ∃ k, (bytesOf markedAndNameless).take 70 = bytesOf (markedAndNameless.take k) := by
    rw [← bytesOf_whole_iff]
    decide +kernel
  exact ⟨turns, t, htorn hcut ▸ hend, hdelivered.trans (by decide +kernel)⟩

end LcmBus.LogFile
