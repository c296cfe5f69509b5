import LcmBus.Client.LogSeek

/-!
# The end of a replay

* `seekTurn`: one turn of the loop of `seek_before`, and `after_seekTurn` that it comes to the end of
  the walk;
* `Progresses`: a turn of `log_reader` moves bytes or is the last, and is not refused the room it asks
  for;
* `replay_ends`: **every file ends**, whatever is in it and however the reads split it.
-/

namespace LcmBus.LogFile

open Log Incremental

/-! ### The loop of `seek_before` -/

/-- One turn of the loop of `seek_before`, from where the walk is and where the reader is to start.
It ends with where the reader starts. -/
def seekTurn (file : Bytes) (timestamp : Int64) (s : ℕ × ℕ) : (ℕ × ℕ) × Option ℕ :=
  if file.length < s.1 + headerLen then (s, some s.2)
  else
    match peek ((file.drop s.1).take headerLen) with
    | .ok (some peeked) =>
      if peeked.timestamp ≥ timestamp then ((s.1, s.1), some s.1)
      else ((s.1 + peeked.len, s.1), none)
    | _ => (s, some s.2)

section Seek

variable {file : Bytes} {timestamp : Int64} {at_ from_ : ℕ}

theorem seekTurn_of_short (hlen : file.length < at_ + headerLen) :
    seekTurn file timestamp (at_, from_) = ((at_, from_), some from_) := if_pos hlen

theorem seekTurn_of_error (hlen : at_ + headerLen ≤ file.length) {e : WireError}
    (hhead : head (file.drop at_) = .error e) :
    seekTurn file timestamp (at_, from_) = ((at_, from_), some from_) := by
  rw [seekTurn, if_neg (by dsimp only; omega), peek_take hlen, hhead]
  rfl

theorem seekTurn_of_head (hlen : at_ + headerLen ≤ file.length) {h : Head}
    (hhead : head (file.drop at_) = .ok h) :
    seekTurn file timestamp (at_, from_) =
      if h.timestamp ≥ timestamp then ((at_, at_), some at_) else ((at_ + h.len, at_), none) := by
  rw [seekTurn, if_neg (by dsimp only; omega), peek_take hlen, hhead]
  rfl

/-- **The loop of `seek_before` ends**, with the end of the walk: each head is behind the one before
it. -/
theorem after_seekTurn {fuel : ℕ} (hfuel : file.length < at_ + fuel) :
    ∃ turns ≤ fuel + 1, ∃ s, Loop.after (seekTurn file timestamp) turns (at_, from_) =
      (s, some (walk file timestamp fuel at_ from_)) := by
  induction fuel generalizing at_ from_ with
  | zero => exact ⟨1, le_rfl, _, Loop.after_succ_of_some (seekTurn_of_short (by omega))⟩
  | succ fuel ih =>
    rw [walk]
    by_cases hlen : file.length < at_ + headerLen
    · rw [if_pos hlen]
      exact ⟨1, by omega, _, Loop.after_succ_of_some (seekTurn_of_short hlen)⟩
    rw [if_neg hlen, peek_take (by omega)]
    cases hhead : head (file.drop at_) with
    | error e => exact ⟨1, by omega, _, Loop.after_succ_of_some (seekTurn_of_error (by omega) hhead)⟩
    | ok h =>
      have hturn : seekTurn file timestamp (at_, from_) = _ := seekTurn_of_head (by omega) hhead
      simp only [Except.map]
      split_ifs at hturn ⊢
      · exact ⟨1, by omega, _, Loop.after_succ_of_some hturn⟩
      · have hpos := (len_of_head hhead).1
        obtain ⟨turns, hle, s, hend⟩ := @ih (at_ + h.len) at_ (by omega)
        exact ⟨turns + 1, by omega, s, (Loop.after_succ_of_none hturn).trans hend⟩

end Seek

/-! ### The loop of `log_reader` -/

section Progress

variable {Regex : Type} (engine : Engine Regex) (subscriptions : Subscriptions Regex)
  (start : Option Int64)

/-- What a turn does for the end of its loop. -/
structure Progresses (s : Replay) : Prop where
  /-- A turn that is not the last takes bytes out of the buffer, which go at the start of the next
  one, or puts bytes in. -/
  moves : ∀ t, logReader engine subscriptions start s = (t, none) →
    (∃ k, 0 < k ∧ k ≤ s.left.length ∧ t.left = s.left.drop k) ∨
      ∃ bytes, bytes ≠ [] ∧ t.left = s.left ++ bytes
  /-- It asks for more than is unread, and is not refused. -/
  asks : ∀ n, decode s.left = .ok (.need n) →
    s.left.length < n ∧ ((s.pending.consume s.decoded).reserve n).isSome = true

variable {engine subscriptions start}

theorem progresses {s : Replay} (h : s.Sound) (hcuts : Cut.timedOut ∉ s.source.cuts) :
    Progresses engine subscriptions start s where
  moves t hturn := by
    obtain ⟨-, hturned⟩ := turned engine subscriptions start h
    rw [hturn] at hturned
    cases hturned with
    | took _ found used hlook hleft hsource hheard =>
      obtain ⟨hpos, hle⟩ := takes_look _ _ _ hlook
      exact .inl ⟨used, hpos, hle, hleft⟩
    | read _ n k cuts hlook hk hleft hsource hcuts hsub hheard => exact .inr ⟨_, hk, hleft⟩
    | waited _ n cuts hlook hleft hsource hlt hsub hheard hwaits => exact absurd hwaits hcuts
  asks n hdecode := by
    have hlook : look s.left = .need n := by rw [look, hdecode]
    obtain ⟨hshort, hmost⟩ := need_look hlook
    have hceiling : n ≤ (s.pending.consume s.decoded).ceiling := by
      rw [ReadBuffer.ceiling_consume]
      exact hmost.trans h.ceiling
    obtain ⟨b, hb, -⟩ := ReadBuffer.reserve_of_le _ hceiling
    exact ⟨hshort, by rw [hb]; rfl⟩

end Progress

theorem readerOf_start (file : Bytes) (start : Option Int64) (cuts : List Cut) :
    (readerOf file start cuts).Sound ∧ (readerOf file start cuts).source.cuts = cuts := by
  cases start <;> exact ⟨⟨le_max_left _ _, Nat.zero_le _⟩, rfl⟩

/-- **A replay ends on every file**, whatever bytes are in it, however the reads split it, and with
any start time: `seek_before` does, and `log_reader` behind it, with the end of the log or a torn
one. -/
theorem replay_ends {Regex : Type} (engine : Engine Regex) (subscriptions : Subscriptions Regex)
    (file : Bytes) (start : Option Int64) (cuts : List Cut)
    (hcuts : ∀ cut ∈ cuts, ∃ more, cut = .bytes more) :
    (∀ timestamp, ∃ turns s, Loop.after (seekTurn file timestamp) turns (0, 0) =
      (s, some (seekBefore file timestamp))) ∧
    ∃ turns t stop,
      Loop.after (logReader engine subscriptions start) turns (readerOf file start cuts) =
        (t, some stop) ∧
      (stop = .endOfLog ∨ stop = .tornLog) ∧
      Loop.Each (logReader engine subscriptions start) (Progresses engine subscriptions start) turns
        (readerOf file start cuts) := by
  have hsound := (readerOf_start file start cuts).1
  have hreads : Cut.timedOut ∉ (readerOf file start cuts).source.cuts ∧
      Cut.failed ∉ (readerOf file start cuts).source.cuts := by
    rw [(readerOf_start file start cuts).2]
    constructor <;> intro hcut <;> obtain ⟨_, hbytes⟩ := hcuts _ hcut <;> cases hbytes
  refine ⟨fun timestamp => ?_, ?_⟩
  · obtain ⟨turns, -, s, hend⟩ := @after_seekTurn file timestamp 0 0 (file.length + 1) (by omega)
    exact ⟨turns, s, hend⟩
  obtain ⟨turns, t, stop, hend, hstop⟩ := exists_end_of_view engine subscriptions start
    (P := fun _ _ => True) (Q := fun _ stop => stop = .endOfLog ∨ stop = .tornLog)
    (fun _ _ _ _ _ _ _ _ => trivial)
    (fun view _ _ _ _ => by by_cases hview : view = [] <;> simp [hview]) hsound hreads.2 trivial
  refine ⟨turns, t, stop, hend, hstop, Loop.each_true.imp
    (P := fun s => s.Sound ∧ Cut.timedOut ∉ s.source.cuts)
    (fun s hs _ => progresses hs.1 hs.2) (fun s t hs hturn => ?_) ⟨hsound, hreads.1⟩⟩
  obtain ⟨hsound', hturned⟩ := turned engine subscriptions start hs.1
  rw [hturn] at hsound' hturned
  exact ⟨hsound', fun hwaits => hs.2 (hturned.cuts_subset hwaits)⟩

/-- A file of a sync word, and a head that asks for more than there is. -/
theorem replay_ends_of_head : ∃ turns t stop,
    Loop.after (logReader noPatterns ⟨[.name "a"]⟩ (some 5)) turns
        (readerOf (u32ToBe magic ++ List.replicate 30 1) (some 5) [.bytes 3, .bytes 40]) =
      (t, some stop) ∧ (stop = .endOfLog ∨ stop = .tornLog) := by
  obtain ⟨-, turns, t, stop, hend, hstop, -⟩ := replay_ends noPatterns ⟨[.name "a"]⟩
    (u32ToBe magic ++ List.replicate 30 1) (some 5) [.bytes 3, .bytes 40] (by simp)
  exact ⟨turns, t, stop, hend, hstop⟩

end LcmBus.LogFile
