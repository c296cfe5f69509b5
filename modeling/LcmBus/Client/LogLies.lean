import LcmBus.Client.LogSeek
import LcmBus.Wire.LogEntries

/-!
# A length that lies

What `decode` looks for behind an event it looks for among the bytes that have come, and not in the
file.

* `Honest`: the next turn delivers nothing, or an event that the file holds nothing but a sync word
  or its own end behind;
* `Settles`: what has come shows it;
* `lies_of_cut`: a turn that delivers is honest exactly where that holds;
* `delivers_a_lie`: a read that ends with an event, and what is behind it.
-/

namespace LcmBus.LogFile

open Log Incremental

/-- Where what has come holds an event whole, and the file holds four bytes or more behind it that do
not start with the sync word, then four of these have come. -/
def Settles (s : Replay) : Prop :=
  ∀ h, head s.left = .ok h → h.len ≤ s.left.length → ¬ Behind s.view h.len →
    h.len + 4 ≤ s.left.length

section Honest

variable {Regex : Type} (engine : Engine Regex) (subscriptions : Subscriptions Regex)
  (start : Option Int64) (file : Bytes)

/-- The next turn delivers nothing, or an event of the file with a sync word behind it, or with less
than one of any bytes. -/
def Honest (s : Replay) : Prop :=
  (logReader engine subscriptions start s).1.heard.delivered = s.heard.delivered ∨
  ∃ event used at_, decode s.left = .ok (.item event used) ∧
    (logReader engine subscriptions start s).1.heard.delivered =
      s.heard.delivered ++ [deliveryOf event] ∧
    s.view = file.drop at_ ∧ Behind (file.drop at_) used

/-- What holds of the reader between two turns: it is at a place of its file. -/
structure Placed (s : Replay) : Prop where
  sound : s.Sound
  place : ∃ at_, s.view = file.drop at_

variable {engine subscriptions start file} {s t : Replay}

theorem Placed.turn (h : Placed file s)
    (hturn : logReader engine subscriptions start s = (t, none)) : Placed file t := by
  obtain ⟨hsound, hturned⟩ := turned engine subscriptions start h.sound
  obtain ⟨at_, hat⟩ := h.place
  rw [hturn] at hsound hturned
  rcases hturned.view with ⟨found, used, -, hview, -⟩ | ⟨hview, -⟩
  · exact ⟨hsound, at_ + used, by rw [hview, hat, List.drop_drop]⟩
  · exact ⟨hsound, at_, hview.trans hat⟩

/-- The bytes behind an event, where four of them have come. -/
theorem behind_left {len : ℕ} (h : len + 4 ≤ s.left.length) :
    Behind s.left len ↔ Behind s.view len := by
  have hlen : (s.left.drop len).length = s.left.length - len := List.length_drop
  have htake : (s.view.drop len).take 4 = (s.left.drop len).take 4 := by
    rw [Replay.view, List.drop_append_of_le_length (by omega),
      List.take_append_of_le_length (by omega)]
  have hview : 4 ≤ (s.view.drop len).length := by
    rw [Replay.view, List.length_drop, List.length_append]
    omega
  rw [Behind, Behind, htake]
  exact ⟨fun hbehind _ => hbehind (by omega), fun hbehind _ => hbehind hview⟩

/-- A turn delivers nothing, or the event at the front of what has come. -/
theorem delivered_cases (h : s.Sound) :
    (logReader engine subscriptions start s).1.heard.delivered = s.heard.delivered ∨
    ∃ event used, decode s.left = .ok (.item event used) ∧
      (logReader engine subscriptions start s).1.heard.delivered =
        s.heard.delivered ++ [deliveryOf event] := by
  obtain ⟨-, hturned⟩ := turned engine subscriptions start h
  generalize logReader engine subscriptions start s = next at hturned
  cases hturned with
  | took t found used hlook hleft hsource hheard =>
    cases found with
    | event event =>
      by_cases hwanted : wanted engine subscriptions start event = true
      · refine .inr ⟨event, used, ?_, by simp [hheard, onFound, onEvent, hwanted]⟩
        unfold look at hlook
        split at hlook <;> cases hlook
        assumption
      · exact .inl (by simp [hheard, onFound, onEvent, hwanted])
    | skipped => exact .inl (by simp [hheard, onFound, onSkip, onLost])
    | slid => exact .inl (by simp [hheard, onFound, onLost])
  | read t n k cuts hlook hk hleft hsource hcuts hsub hheard => exact .inl (by rw [hheard])
  | waited t n cuts hlook hleft hsource hcuts hsub hheard hwaits => exact .inl (by rw [hheard])
  | failed t e hfailed hheard => exact .inl (by rw [hheard])
  | ended t n hlook hrest hheard => exact .inl (by rw [hheard]; split_ifs <;> rfl)

/-- An event that `decode` takes has its head at the front of what has come. -/
theorem head_of_item {event : Event} {used : ℕ} {data : Bytes}
    (hdecode : decode data = .ok (.item event used)) :
    ∃ h, head data = .ok h ∧ h.len = used ∧ used ≤ data.length ∧ Behind data used := by
  have hlook : look data = .take (.event event) used := by rw [look, hdecode]
  rcases look_cases data with ⟨n, hneed, -⟩ | ⟨h, -, hhead, hlen, hbehind, htake⟩ | ⟨-, hslid, -⟩
  · rw [hneed] at hlook
    cases hlook
  · rw [htake, Answer.take.injEq] at hlook
    exact ⟨h, hhead, hlook.2, hlook.2 ▸ hlen, hlook.2 ▸ hbehind⟩
  · rw [hslid] at hlook
    cases hlook

/-- **An event is taken that the file agrees with, exactly where what has come shows that.** -/
theorem behind_iff_settles {event : Event} {used : ℕ}
    (hdecode : decode s.left = .ok (.item event used)) : Behind s.view used ↔ Settles s := by
  obtain ⟨h, hhead, rfl, hlen, hbehind⟩ := head_of_item hdecode
  constructor
  · intro hview h' hhead' _ hlies
    rw [hhead] at hhead'
    cases hhead'
    exact absurd hview hlies
  · intro hsettles
    by_contra hlies
    exact hlies ((behind_left (hsettles h hhead hlen hlies)).1 hbehind)

/-- At a turn where what has come shows what is behind an event, none is delivered that lies. -/
theorem Placed.honest (h : Placed file s) (hsettles : Settles s) :
    Honest engine subscriptions start file s := by
  obtain ⟨at_, hat⟩ := h.place
  refine (delivered_cases h.sound).imp_right ?_
  rintro ⟨event, used, hdecode, hdelivered⟩
  exact ⟨event, used, at_, hdecode, hdelivered, hat, hat ▸ (behind_iff_settles hdecode).2 hsettles⟩

/-- And a turn that delivers one that does not lie has been shown what is behind it. -/
theorem Honest.settles (h : Honest engine subscriptions start file s)
    (hdelivers : (logReader engine subscriptions start s).1.heard.delivered ≠ s.heard.delivered) :
    Settles s := by
  obtain ⟨event, used, at_, hdecode, -, hat, hbehind⟩ := h.resolve_left hdelivers
  exact (behind_iff_settles hdecode).1 (hat ▸ hbehind)

end Honest

variable {Regex : Type}

/-- **Where on each turn what has come shows what the file holds behind an event, no event is
delivered that the file does not agree with**, whatever it holds and however the reads split it.  A
turn that delivers is honest there, and at no other time. -/
theorem lies_of_cut (engine : Engine Regex) (subscriptions : Subscriptions Regex)
    (start : Option Int64) (file : Bytes) (cuts : List Cut) (n : ℕ) :
    (Loop.Each (logReader engine subscriptions start) Settles n
        (readerOf file start cuts) →
      Loop.Each (logReader engine subscriptions start) (Honest engine subscriptions start file) n
        (readerOf file start cuts)) ∧
    ∀ s, Loop.after (logReader engine subscriptions start) n
        (readerOf file start cuts) = (s, none) →
      (logReader engine subscriptions start s).1.heard.delivered ≠ s.heard.delivered →
      (Honest engine subscriptions start file s ↔ Settles s) := by
  have hstart : Placed file (readerOf file start cuts) := by
    cases start with
    | none => exact ⟨⟨le_max_left _ _, Nat.zero_le _⟩, 0, rfl⟩
    | some timestamp => exact ⟨⟨le_max_left _ _, Nat.zero_le _⟩, seekBefore file timestamp, rfl⟩
  refine ⟨fun heach => heach.imp (fun s hs => hs.honest) (fun s t hs hturn => hs.turn hturn) hstart,
    fun s hrun hdelivers => ⟨fun h => h.settles hdelivers, ?_⟩⟩
  have hplaced := (Loop.after_invariant (Q := fun _ _ => True)
    (fun s t hs _ hturn => Placed.turn hs hturn) (fun _ _ _ _ _ _ => trivial) hstart
    (Loop.each_true (n := n))).1 (by rw [hrun])
  rw [hrun] at hplaced
  exact hplaced.honest

theorem one_le_channelMax : 1 ≤ channelMax := by decide

/-- A log of one event, with four bytes behind it that are no sync word. -/
def lyingLog : Bytes :=
  bytesOf [⟨0, 5, [0x61], [], Nat.one_pos, one_le_channelMax, Nat.zero_le _⟩] ++ [0, 0, 0, 0]

/-- That log in a read of the 29 bytes of the event, and one of the rest: the event is delivered. -/
theorem delivers_a_lie : ∃ s,
    Loop.after (logReader noPatterns ⟨[.name "a"]⟩ none) 1 (readerOf lyingLog none [.bytes 28]) =
        (s, none) ∧
      s.view = lyingLog ∧ decode s.left = .ok (.item ⟨0, 5, ⟨"a", []⟩⟩ 29) ∧
      (logReader noPatterns ⟨[.name "a"]⟩ none s).1.heard.delivered ≠ s.heard.delivered ∧
      4 ≤ (lyingLog.drop 29).length ∧ (lyingLog.drop 29).take 4 ≠ u32ToBe magic := by
  have hread : ∀ room, 64 * 1024 ≤ room → (⟨lyingLog, [.bytes 28]⟩ : Source).read room =
      (.ok (lyingLog.take 29), ⟨[0, 0, 0, 0], []⟩) := fun room hroom => by
    rw [Source.read]
    simp only [Nat.min_eq_left (by omega : 28 + 1 ≤ room)]
    rfl
  obtain ⟨hsource, hleft, hnone⟩ := first_turn noPatterns ⟨[.name "a"]⟩ none hread (by decide)
  have hdecode : decode (lyingLog.take 29) = .ok (.item ⟨0, 5, ⟨"a", []⟩⟩ 29) := by decide +kernel
  refine ⟨_, Loop.after_one_of_none (hnone (by decide)), ?_, ?_, ?_, by decide, by decide⟩
  · rw [readerOf, logStart, Replay.view, hleft, hsource]
    rfl
  · rw [readerOf, logStart, hleft, hdecode]
  · rw [readerOf, logStart, heard_of_item (hleft ▸ hdecode), onEvent, if_pos (by decide)]
    simp

/-- That log in one read: what is behind the event has come with it, and it is not delivered. -/
theorem lies_of_cut_of_lyingLog :
    Loop.Each (logReader noPatterns ⟨[.name "a"]⟩ none)
      (Honest noPatterns ⟨[.name "a"]⟩ none lyingLog) 2 (readerOf lyingLog none []) := by
  have hread : ∀ room, 64 * 1024 ≤ room →
      (⟨lyingLog, []⟩ : Source).read room = (.ok lyingLog, ⟨[], []⟩) := fun room hroom => by
    have hlen : lyingLog.length = 33 := by decide
    rw [Source.read]
    simp only [List.take_of_length_le (by omega : lyingLog.length ≤ room),
      List.drop_of_length_le (by omega : lyingLog.length ≤ room)]
  obtain ⟨-, hleft, -⟩ := first_turn noPatterns ⟨[.name "a"]⟩ none hread (by decide)
  refine (lies_of_cut noPatterns ⟨[.name "a"]⟩ none lyingLog [] 2).1 ⟨?_, fun _ => ⟨?_, fun _ => trivial⟩⟩
  · rintro h ⟨⟩
  · have hhead : head lyingLog = .ok ⟨0, 5, 1, 0⟩ := by decide +kernel
    intro h hh _ _
    rw [readerOf, logStart, hleft] at hh ⊢
    rw [hhead] at hh
    cases hh
    decide

end LcmBus.LogFile
