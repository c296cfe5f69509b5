import LcmBus.Client.LogCut
import LcmBus.Client.LogSeek

/-!
# Damage in a log

A log of entries with bytes in it that are no part of any.

* `slide_le`: off a torn event the reader comes no further than the next sync word;
* `look_quiet`: on bytes with no sync word at the front the reader slides, or waits;
* `Place`: where the reader of a damaged log is, and what it has delivered by then;
* `damage_costs_one`: what it delivers, however the reads split the file.
-/

namespace LcmBus.LogFile

open Log Incremental

/-! ### Sliding -/

/-- **The reader slides no further than the next sync word**, of which it may have a part. -/
theorem slide_le {front behind left : Bytes} (h : left <+: front ++ behind) (hne : front ≠ [])
    (hsync : SyncAt (front ++ behind) front.length) : slide left ≤ front.length := by
  have hpos := List.length_pos_iff.2 hne
  -- What has come has the whole of that sync word, or it ends in front of the end of it.
  have hcome : front.length + 4 ≤ left.length → SyncAt (left.drop 1) (front.length - 1) := by
    intro hlen
    obtain ⟨more, hmore⟩ := h
    rw [← hmore, syncAt_append hlen] at hsync
    rwa [syncAt_drop, Nat.add_sub_cancel' hpos]
  unfold slide
  by_cases hlen : front.length + 4 ≤ left.length
  · obtain ⟨k, hk, hfound⟩ := resync_of_syncAt (hcome hlen)
    rw [hfound]
    dsimp only
    omega
  · cases hfound : resync (left.drop 1) with
    | none =>
      dsimp only
      omega
    | some k =>
      have hk := (syncAt_of_resync hfound).add_le
      rw [List.length_drop] at hk
      dsimp only
      omega

/-- Where there is no sync word at the front, the reader slides, or waits for a head. -/
theorem look_quiet {left view : Bytes} (h : left <+: view) (hquiet : ¬ SyncAt view 0) :
    (left.length < headerLen ∧ look left = .need headerLen) ∨
      look left = .take .slid (slide left) := by
  by_cases hshort : left.length < headerLen
  · exact .inl ⟨hshort, by rw [look, decode_short hshort]⟩
  · have hlong : headerLen ≤ left.length := not_lt.1 hshort
    cases hhead : head left with
    | error e => exact .inr (by rw [look, decode_of_error hlong hhead])
    | ok found =>
      have h28 := length_header
      obtain ⟨more, rfl⟩ := h
      exact absurd ((syncAt_append (by omega)).2 (syncAt_of_head hlong hhead)) hquiet

/-! ### Where the reader is -/

section Damage

variable {Regex : Type} (engine : Engine Regex) (subscriptions : Subscriptions Regex)

/-- What a handler hears of the entries of a log. -/
def deliveries (entries : List Entry) : List Delivery :=
  heardOf engine subscriptions none (entries.map fun e => foundOf e.event)

variable (before : List Entry) (last : Entry) (damage : Bytes) (behind : List Entry)

/-- The entries that may have been delivered in front of the damage: all, or all but the last. -/
def Known (known : List Entry) : Prop := known = before ∨ known = before ++ [last]

/-- Where the reader is, by the bytes that are left and what it has delivered. -/
inductive Place : Bytes → List Delivery → Prop
  | front (done rest : List Entry) (hbefore : before = done ++ rest) :
      Place (bytesOf rest ++ (last.bytes ++ (damage ++ bytesOf behind)))
        (deliveries engine subscriptions done)
  | inside (known : List Entry) (hknown : Known before last known) (hidden : Bytes)
      (hne : hidden ≠ [])
      (hquiet : ∀ i < hidden.length, ¬ SyncAt (hidden ++ bytesOf behind) i) :
      Place (hidden ++ bytesOf behind) (deliveries engine subscriptions known)
  | behind (known : List Entry) (hknown : Known before last known) (done rest : List Entry)
      (hbehind : behind = done ++ rest) :
      Place (bytesOf rest) (deliveries engine subscriptions (known ++ done))

variable {engine subscriptions before last damage behind}

theorem deliveries_concat (entries : List Entry) (e : Entry) :
    deliveries engine subscriptions (entries ++ [e]) =
      deliveries engine subscriptions entries ++
        heardOf engine subscriptions none [foundOf e.event] := by
  rw [deliveries, List.map_append, heardOf_append]
  rfl

/-- The reader comes out of the last entry, or out of a part of the damage. -/
theorem Place.off {known : List Entry} (hknown : Known before last known) {hidden : Bytes}
    (hquiet : ∀ i < hidden.length, ¬ SyncAt (hidden ++ bytesOf behind) i) :
    Place engine subscriptions before last damage behind (hidden ++ bytesOf behind)
      (deliveries engine subscriptions known) := by
  by_cases hne : hidden = []
  · have hplace : Place engine subscriptions before last damage behind (bytesOf behind)
        (deliveries engine subscriptions (known ++ [])) := .behind known hknown [] behind rfl
    rw [List.append_nil] at hplace
    rwa [hne, List.nil_append]
  · exact .inside known hknown hidden hne hquiet

/-- A slide ends in front of the next sync word, or on it. -/
theorem Place.slid {known : List Entry} (hknown : Known before last known) {hidden left : Bytes}
    (hbehind : SyncAt (bytesOf behind) 0) (hne : hidden ≠ [])
    (hquiet : ∀ i, 0 < i → i < hidden.length → ¬ SyncAt (hidden ++ bytesOf behind) i)
    (hpart : left <+: hidden ++ bytesOf behind) (hlook : look left = .take .slid (slide left)) :
    Place engine subscriptions before last damage behind
      ((hidden ++ bytesOf behind).drop (slide left))
      (deliveries engine subscriptions known ++ heardOf engine subscriptions none [.slid]) := by
  have hpos := (takes_look _ _ _ hlook).1
  have hle : slide left ≤ hidden.length := slide_le hpart hne (by rwa [SyncAt, List.drop_left])
  rw [List.drop_append_of_le_length hle, heardOf, eventsOf]
  simp only [List.filterMap_cons_none, List.filterMap_nil, List.filter_nil, List.map_nil,
    List.append_nil]
  refine .off hknown fun i hi => ?_
  rw [List.length_drop] at hi
  rw [← List.drop_append_of_le_length hle, syncAt_drop]
  exact hquiet _ (by omega) (by omega)

/-- **What may be taken where the reader is leaves it at such a place.** -/
theorem Place.takes {view left : Bytes} {delivered : List Delivery} {found : Found} {used : ℕ}
    (hbehind : SyncAt (bytesOf behind) 0)
    (hdamage : ∀ i, 0 < i → i < (last.bytes ++ damage).length →
      ¬ SyncAt (last.bytes ++ damage ++ bytesOf behind) i)
    (h : Place engine subscriptions before last damage behind view delivered)
    (hpart : left <+: view) (hlook : look left = .take found used) :
    Place engine subscriptions before last damage behind (view.drop used)
      (delivered ++ heardOf engine subscriptions none [found]) := by
  cases h with
  | front done rest hbefore =>
    have hlast := last.headerLen_lt
    cases rest with
    | nil =>
      rw [bytesOf_nil, List.nil_append] at hpart ⊢
      rw [List.append_nil] at hbefore
      subst hbefore
      rcases look_entry hpart with ⟨-, n, hneed⟩ | ⟨hlong, htake⟩
      · rw [hneed] at hlook
        cases hlook
      split_ifs at htake with hsync
      · -- What has come ends with the last entry, or in front of the end of a sync word.
        rw [htake] at hlook
        cases hlook
        rw [List.drop_left, ← deliveries_concat]
        refine .off (.inr rfl) fun i hi => ?_
        have := hdamage (last.bytes.length + i) (by omega) (by rw [List.length_append]; omega)
        rwa [List.append_assoc, ← syncAt_drop, List.drop_left] at this
      · rw [htake] at hlook
        cases hlook
        rw [← List.append_assoc] at hpart ⊢
        exact .slid (.inl rfl) hbehind (List.ne_nil_of_length_pos (by rw [List.length_append]; omega))
          hdamage hpart htake
    | cons e rest =>
      rw [bytesOf_cons, List.append_assoc] at hpart ⊢
      have hsync : SyncAt (bytesOf rest ++ (last.bytes ++ (damage ++ bytesOf behind))) 0 := by
        cases rest with
        | nil => exact last.syncAt_bytes _
        | cons e' rest => rw [bytesOf_cons, List.append_assoc]; exact e'.syncAt_bytes _
      rcases look_entry_of_sync hpart fun _ => hsync with ⟨-, n, hneed⟩ | ⟨hlong, htake⟩
      · rw [hneed] at hlook
        cases hlook
      · rw [htake] at hlook
        cases hlook
        rw [List.drop_left, ← deliveries_concat]
        exact .front (done ++ [e]) rest (by simp [hbefore])
  | inside known hknown hidden hne hquiet =>
    rcases look_quiet hpart (hquiet 0 (List.length_pos_iff.2 hne)) with ⟨-, hneed⟩ | hslid
    · rw [hneed] at hlook
      cases hlook
    · rw [hslid] at hlook
      cases hlook
      exact .slid hknown hbehind hne (fun i _ hi => hquiet i hi) hpart hslid
  | behind known hknown done rest hrest =>
    cases rest with
    | nil =>
      rw [List.prefix_nil.1 hpart] at hlook
      cases hlook
    | cons e rest =>
      rcases look_entries hpart with ⟨-, n, hneed⟩ | ⟨hlong, htake⟩
      · rw [hneed] at hlook
        cases hlook
      · rw [htake] at hlook
        cases hlook
        rw [bytesOf_cons, List.drop_left, ← deliveries_concat, List.append_assoc]
        exact .behind known hknown (done ++ [e]) rest (by simp [hrest])

/-- Where the reader waits for more and none is left, it has taken all that is behind the damage. -/
theorem Place.ends {view : Bytes} {delivered : List Delivery} {n : ℕ} {next : Entry}
    {others : List Entry} (hbehind : behind = next :: others)
    (h : Place engine subscriptions before last damage behind view delivered)
    (hlook : look view = .need n) :
    view = [] ∧ ∃ known, Known before last known ∧
      delivered = deliveries engine subscriptions (known ++ behind) := by
  cases h with
  | front done rest hbefore =>
    cases rest with
    | nil => exact absurd hlook look_whole_ne_need
    | cons e rest =>
      rw [bytesOf_cons, List.append_assoc] at hlook
      exact absurd hlook look_whole_ne_need
  | inside known hknown hidden hne hquiet =>
    rcases look_quiet List.prefix_rfl (hquiet 0 (List.length_pos_iff.2 hne)) with ⟨hshort, -⟩ | hslid
    · have hlong := next.headerLen_lt
      rw [hbehind, bytesOf_cons, List.length_append, List.length_append] at hshort
      omega
    · rw [hslid] at hlook
      cases hlook
  | behind known hknown done rest hrest =>
    cases rest with
    | nil => exact ⟨rfl, known, hknown, by rw [hrest, List.append_nil]⟩
    | cons e rest => exact absurd hlook look_whole_ne_need

theorem deliveries_eq (entries : List Entry) :
    deliveries engine subscriptions entries = ((entries.filterMap Entry.event).filter
      fun event => subscriptions.selects engine event.frame.channel).map deliveryOf := by
  have hevents : eventsOf (entries.map fun e => foundOf e.event) = entries.filterMap Entry.event := by
    rw [eventsOf, List.filterMap_map]
    refine List.filterMap_congr fun e _ => ?_
    cases hevent : e.event <;> simp [foundOf, hevent]
  rw [deliveries, heardOf, hevents, wanted_none]

end Damage

/-- **Damage costs the event in front of it, and no event behind it.**  The sync word is in the last
event in front of the damage, the damage, and the front of the next event at the starts of the two
events alone: then all is delivered, however the reads split the file, but for that last event, which
may be lost. -/
theorem damage_costs_one {Regex : Type} (engine : Engine Regex) (subscriptions : Subscriptions Regex)
    (before : List Entry) (last next : Entry) (damage : Bytes) (behind : List Entry)
    (hsync : ∀ i, SyncAt (last.bytes ++ damage ++ next.bytes.take 4) i →
      i = 0 ∨ i = last.bytes.length + damage.length)
    (cuts : List Cut) (hcuts : Cut.failed ∉ cuts) :
    ∃ turns t known, Loop.after (logReader engine subscriptions none) turns
        (logStart ⟨bytesOf (before ++ [last]) ++ damage ++ bytesOf (next :: behind), cuts⟩) =
          (t, some .endOfLog) ∧
      (known = before ∨ known = before ++ [last]) ∧
      t.heard.delivered = (((known ++ next :: behind).filterMap Entry.event).filter
        fun event => subscriptions.selects engine event.frame.channel).map deliveryOf := by
  have hnext : SyncAt (bytesOf (next :: behind)) 0 := next.syncAt_bytes _
  have hdamage : ∀ i, 0 < i → i < (last.bytes ++ damage).length →
      ¬ SyncAt (last.bytes ++ damage ++ bytesOf (next :: behind)) i := by
    intro i hpos hlt hi
    have hlong := next.headerLen_lt
    have h28 := Log.length_header
    have hfour : (next.bytes.take 4).length = 4 := by rw [List.length_take]; omega
    have hsplit : last.bytes ++ damage ++ bytesOf (next :: behind) =
        last.bytes ++ damage ++ next.bytes.take 4 ++ (next.bytes.drop 4 ++ bytesOf behind) := by
      rw [bytesOf_cons, List.append_assoc (last.bytes ++ damage),
        ← List.append_assoc (next.bytes.take 4), List.take_append_drop]
    rw [hsplit, syncAt_append (by rw [List.length_append, hfour]; omega)] at hi
    rw [List.length_append] at hlt
    rcases hsync i hi with rfl | rfl <;> omega
  have hstart : Place engine subscriptions before last damage (next :: behind)
      (bytesOf before ++ (last.bytes ++ (damage ++ bytesOf (next :: behind)))) [] :=
    .front [] before rfl
  obtain ⟨turns, t, stop, hend, rfl, known, hknown, hheard⟩ := exists_end_of_view engine subscriptions none
    (P := fun view heard =>
      Place engine subscriptions before last damage (next :: behind) view heard.delivered)
    (Q := fun heard stop => stop = .endOfLog ∧ ∃ known, Known before last known ∧
      heard.delivered = deliveries engine subscriptions (known ++ next :: behind))
    (fun view heard left found used hplace hpart hlook => by
      rw [delivered_onFound]
      exact hplace.takes hnext hdamage hpart hlook)
    (fun view heard n hplace hlook => by
      obtain ⟨hview, hknown⟩ := hplace.ends rfl hlook
      rw [if_pos hview, if_pos hview]
      exact ⟨rfl, hknown⟩)
    (show (logStart ⟨bytesOf (before ++ [last]) ++ damage ++ bytesOf (next :: behind), cuts⟩).Sound from
      ⟨le_max_left _ _, Nat.zero_le _⟩) hcuts
    (by simpa [logStart, replayOf, Replay.view, Replay.left] using hstart)
  exact ⟨turns, t, known, hend, hknown, hheard.trans (deliveries_eq _)⟩

/-- An event, seventeen bytes that are no event, and an event. -/
def tornEvent : Entry := ⟨0, 10, [0x2f, 0x61], [1], by decide, by decide, by decide⟩

def behindTorn : Entry := ⟨1, 20, [0x2f, 0x62], [2], by decide, by decide, by decide⟩

/-- That log, in one read: what is behind the damage is delivered. -/
theorem damage_costs_one_of_torn : ∃ turns t,
    Loop.after (logReader noPatterns ⟨[.name "/a", .name "/b"]⟩ none) turns
        (logStart ⟨bytesOf [tornEvent] ++ List.replicate 17 0xff ++ bytesOf [behindTorn], []⟩) =
      (t, some .endOfLog) ∧
    (t.heard.delivered = [⟨⟨"/b", [2]⟩, 20, 1⟩] ∨
      t.heard.delivered = [⟨⟨"/a", [1]⟩, 10, 0⟩, ⟨⟨"/b", [2]⟩, 20, 1⟩]) := by
  have hsync : ∀ i, SyncAt (tornEvent.bytes ++ List.replicate 17 0xff ++ behindTorn.bytes.take 4) i →
      i = 0 ∨ i = tornEvent.bytes.length + (List.replicate 17 (0xff : UInt8)).length := by
    have hlen : (tornEvent.bytes ++ List.replicate 17 0xff ++ behindTorn.bytes.take 4).length = 52 := by
      decide +kernel
    have hall : ∀ i < 52, SyncAt (tornEvent.bytes ++ List.replicate 17 0xff ++
        behindTorn.bytes.take 4) i →
        i = 0 ∨ i = tornEvent.bytes.length + (List.replicate 17 (0xff : UInt8)).length := by
      decide +kernel
    intro i hi
    have := hi.add_le
    exact hall i (by omega) hi
  obtain ⟨turns, t, known, hend, hknown, hheard⟩ := damage_costs_one noPatterns
    ⟨[.name "/a", .name "/b"]⟩ [] tornEvent behindTorn (List.replicate 17 0xff) [] hsync [] (by simp)
  refine ⟨turns, t, hend, ?_⟩
  rcases hknown with rfl | rfl
  · exact .inl (hheard.trans (by decide +kernel))
  · exact .inr (hheard.trans (by decide +kernel))

end LcmBus.LogFile
