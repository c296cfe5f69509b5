import LcmBus.Bus.Pace
import LcmBus.Lib.Run
import LcmBus.Wire.Log

/-!
# The times of a replay

`log_reader` and `wait_until` against a clock: when a replay hands each event of its log on, however
long it reads, sleeps, or is held by the handler.

* `State` and `step`: one step of the thread, with the time at which it takes it;
* `taken` and `handed`: of a past, the events with the times they are to be handed on at, and those that
  were;
* `Kept.step`: the times add up from that of the first event;
* `keeps_its_times`: what holds in every run.

Times are in nanoseconds.
-/

namespace LcmBus.Paced

open Log (Event)
open Url (Speed)

variable {F : Type}

/-! ### The thread and its clock -/

/-- How long the thread sleeps before it looks at `running` again. -/
def slice : ℕ := 100 * 10 ^ 6

/-- `Instant::checked_add`, where the counter of the platform goes to `latest`. -/
def checkedAdd (latest instant hold : ℕ) : Option ℕ :=
  if instant + hold ≤ latest then some (instant + hold) else none

/-- Where the thread is. -/
inductive Place
  /-- At the head of its loop. -/
  | looping
  /-- Behind it. -/
  | reading
  /-- At the head of the loop of `wait_until`. -/
  | waiting (event : Event) (target : ℕ)
  | sleeping (event : Event) (target wake : ℕ)
  /-- Behind the wait. -/
  | handing (event : Event) (target : ℕ)
  | left
  deriving DecidableEq, Repr

structure State (F : Type) where
  pace : Pace F
  /-- The time that the event before was given. -/
  anchor : Option ℕ
  /-- The time of the last step. -/
  now : ℕ
  running : Bool
  place : Place

def start (speed : Speed F) : State F := ⟨.new speed, none, 0, true, .looping⟩

inductive Act
  | look
  /-- An event that is not before the start of the replay. -/
  | takes (event : Event)
  /-- A turn that comes to none. -/
  | skips
  /-- The end of the log, or of what can be read of it. -/
  | ends
  /-- `wait_until` looks at the clock. -/
  | clock
  | wakes
  /-- The handler hears the event if the rules select it, and returns. -/
  | hands
  | close
  deriving DecidableEq, Repr

namespace State

/-- The event waits for its time. -/
def takes (rates : Rates F) (latest : ℕ) (s : State F) (event : Event) : State F :=
  let (hold, pace) := s.pace.hold rates event.timestamp
  let target := match s.anchor with
    | some instant => (checkedAdd latest instant (1000 * hold)).getD instant
    | none => s.now
  { s with pace, anchor := some target, place := .waiting event target }

end State

/-- One step at the time `now`. -/
def step (rates : Rates F) (latest : ℕ) (before : State F) : Act × ℕ → Option (State F)
  | (act, now) =>
    if before.now ≤ now then
      let s := { before with now }
      match act, s.place with
      | .look, .looping => some { s with place := if s.running then .reading else .left }
      | .takes event, .reading => some (s.takes rates latest event)
      | .skips, .reading => some { s with place := .looping }
      | .ends, .reading => some { s with place := .left }
      | .clock, .waiting event target =>
        some { s with place :=
          if target - now = 0 then .handing event target
          else if s.running then .sleeping event target (now + min (target - now) slice)
          else .left }
      | .wakes, .sleeping event target wake =>
        if wake ≤ now then some { s with place := .waiting event target } else none
      | .hands, .handing _ _ => some { s with place := .looping }
      | .close, _ => some { s with running := false }
      | _, _ => none
    else none

/-! ### What a past holds -/

abbrev Past (F : Type) := List (State F × (Act × ℕ) × State F)

/-- The event that waits for its time. -/
def Place.waits : Place → List (Event × ℕ)
  | .waiting event target | .sleeping event target _ => [(event, target)]
  | _ => []

/-- The event that a step takes up, with the time it is to be handed on at. -/
def takes (act : Act) (t : State F) : List (Event × ℕ) :=
  match act with
  | .takes _ => t.place.waits
  | _ => []

/-- All those taken up. -/
def taken (past : Past F) : List (Event × ℕ) := past.flatMap fun (_, (act, _), t) => takes act t

/-- The event whose wait ends in a step, with the time of it. -/
def hands (act : Act) (now : ℕ) (t : State F) : List ((Event × ℕ) × ℕ) :=
  match act, t.place with
  | .clock, .handing event target => [((event, target), now)]
  | _, _ => []

/-- All those handed on. -/
def handed (past : Past F) : List ((Event × ℕ) × ℕ) :=
  past.flatMap fun (_, (act, now), t) => hands act now t

def timestamps (events : List (Event × ℕ)) : List Int64 := events.map fun entry => entry.1.timestamp

section Concat

variable (past : Past F) (s t : State F) (act : Act) (now : ℕ)

@[simp] theorem taken_concat : taken (past ++ [(s, (act, now), t)]) = taken past ++ takes act t := by
  simp [taken]

@[simp] theorem handed_concat : handed (past ++ [(s, (act, now), t)]) = handed past ++ hands act now t := by
  simp [handed]

end Concat

@[simp] theorem timestamps_append (front rest : List (Event × ℕ)) :
    timestamps (front ++ rest) = timestamps front ++ timestamps rest := List.map_append

/-! ### What a step keeps -/

variable {rates : Rates F} {latest : ℕ} {speed : Speed F} {s t : State F} {act : Act} {now : ℕ}
  {past : Past F}

/-- A step, with what it found. -/
inductive Stepped (rates : Rates F) (latest : ℕ) (s : State F) (now : ℕ) : Act → State F → Prop
  | look (h : s.place = .looping) :
    Stepped rates latest s now .look { s with now, place := if s.running then .reading else .left }
  | takes {event : Event} (h : s.place = .reading) :
    Stepped rates latest s now (.takes event) ({ s with now }.takes rates latest event)
  | skips (h : s.place = .reading) : Stepped rates latest s now .skips { s with now, place := .looping }
  | ends (h : s.place = .reading) : Stepped rates latest s now .ends { s with now, place := .left }
  | due {event : Event} {target : ℕ} (h : s.place = .waiting event target) (hdue : target ≤ now) :
    Stepped rates latest s now .clock { s with now, place := .handing event target }
  | sleeps {event : Event} {target : ℕ} (h : s.place = .waiting event target) (hearly : now < target) :
    Stepped rates latest s now .clock { s with
      now, place := .sleeping event target (now + min (target - now) slice) }
  | leaves {event : Event} {target : ℕ} (h : s.place = .waiting event target) :
    Stepped rates latest s now .clock { s with now, place := .left }
  | wakes {event : Event} {target wake : ℕ} (h : s.place = .sleeping event target wake) :
    Stepped rates latest s now .wakes { s with now, place := .waiting event target }
  | hands {event : Event} {target : ℕ} (h : s.place = .handing event target) :
    Stepped rates latest s now .hands { s with now, place := .looping }
  | close : Stepped rates latest s now .close { s with now, running := false }

theorem stepped_of_step (hstep : step rates latest s (act, now) = some t) :
    Stepped rates latest s now act t := by
  simp only [step] at hstep
  split at hstep
  · split at hstep
    · cases hstep
      exact .look ‹_›
    · cases hstep
      exact .takes ‹_›
    · cases hstep
      exact .skips ‹_›
    · cases hstep
      exact .ends ‹_›
    · rename_i event target hplace
      cases hstep
      by_cases hdue : target - now = 0
      · rw [if_pos hdue]
        exact .due hplace (Nat.sub_eq_zero_iff_le.1 hdue)
      · rw [if_neg hdue]
        split
        · exact .sleeps hplace (by omega)
        · exact .leaves hplace
    · split at hstep <;> cases hstep
      exact .wakes ‹_›
    · cases hstep
      exact .hands ‹_›
    · cases hstep
      exact .close
    · cases hstep
  · cases hstep

/-- What holds of a replay in every run. -/
structure Kept (rates : Rates F) (latest : ℕ) (speed : Speed F) (s : State F) (past : Past F) : Prop where
  rate : s.pace.speed = speed
  previous : s.pace.previous = (timestamps (taken past)).getLast?
  anchor : s.anchor = (taken past).getLast?.map Prod.snd
  /-- The times add up from that of the first event, where no counter is at its end. -/
  targets : ∀ first, (taken past).head? = some first →
    first.2 + 1000 * elapsed rates speed (timestamps (taken past)) ≤ latest →
      ∀ k entry, (taken past)[k]? = some entry →
        entry.2 = first.2 + 1000 * elapsed rates speed (timestamps ((taken past).take (k + 1)))
  order : (handed past).map Prod.fst ++ s.place.waits <+: taken past
  all : s.place ≠ .left → (handed past).map Prod.fst ++ s.place.waits = taken past
  late : ∀ entry ∈ handed past, entry.1.2 ≤ entry.2

theorem kept_start (speed : Speed F) : Kept rates latest speed (start speed) [] := by
  constructor
  · rfl
  · rfl
  · rfl
  · exact nofun
  · exact List.prefix_rfl
  · exact fun _ => rfl
  · exact nofun

/-- A step that takes up no event. -/
theorem Kept.goes (h : Kept rates latest speed s past) (hpace : t.pace = s.pace)
    (hanchor : t.anchor = s.anchor) (htakes : takes act t = [])
    (horder : t.place ≠ .left → s.place ≠ .left ∧
      (hands act now t).map Prod.fst ++ t.place.waits = s.place.waits)
    (hleft : t.place = .left → hands act now t = [])
    (hlate : ∀ entry ∈ hands act now t, entry.1.2 ≤ entry.2) :
    Kept rates latest speed t (past ++ [(s, (act, now), t)]) := by
  have htaken : taken (past ++ [(s, (act, now), t)]) = taken past := by simp [htakes]
  have hall : t.place ≠ .left →
      (handed (past ++ [(s, (act, now), t)])).map Prod.fst ++ t.place.waits = taken past := by
    intro hplace
    obtain ⟨hold, heq⟩ := horder hplace
    rw [handed_concat, List.map_append, List.append_assoc, heq]
    exact h.all hold
  constructor
  · rw [hpace]
    exact h.rate
  · rw [hpace, htaken]
    exact h.previous
  · rw [hanchor, htaken]
    exact h.anchor
  · rw [htaken]
    exact h.targets
  · rw [htaken]
    by_cases hplace : t.place = .left
    · rw [handed_concat, hleft hplace, hplace, List.append_nil]
      change (handed past).map Prod.fst ++ [] <+: taken past
      rw [List.append_nil]
      exact (List.prefix_append _ _).trans h.order
    · rw [hall hplace]
  · rw [htaken]
    exact hall
  · intro entry hentry
    rw [handed_concat] at hentry
    rcases List.mem_append.1 hentry with hentry | hentry
    · exact h.late entry hentry
    · exact hlate entry hentry

/-- The time that an event is given behind another one, where no counter is at its end. -/
theorem target_of_anchor {instant hold : ℕ} (h : instant + 1000 * hold ≤ latest) :
    (checkedAdd latest instant (1000 * hold)).getD instant = instant + 1000 * hold := by
  rw [checkedAdd, if_pos h, Option.getD_some]

/-- The time that `takes` gives an event. -/
def targetOf (rates : Rates F) (latest : ℕ) (s : State F) (now : ℕ) (event : Event) : ℕ :=
  match s.anchor with
  | some instant =>
    (checkedAdd latest instant (1000 * (s.pace.hold rates event.timestamp).1)).getD instant
  | none => now

/-- **An event is given a time that adds to the one before it**, however late it comes. -/
theorem Kept.target_eq (h : Kept rates latest speed s past) {event : Event} {first : Event × ℕ}
    (hfirst : (taken past).head? = some first)
    (hlatest : first.2 + 1000 * elapsed rates speed (timestamps (taken past) ++ [event.timestamp]) ≤ latest) :
    targetOf rates latest s now event =
      first.2 + 1000 * elapsed rates speed (timestamps (taken past) ++ [event.timestamp]) := by
  obtain ⟨front, last, htaken⟩ : ∃ front last, taken past = front ++ [last] := by
    refine (List.eq_nil_or_concat' (taken past)).resolve_left fun hnil => ?_
    rw [hnil] at hfirst
    cases hfirst
  have hanchor : s.anchor = some last.2 := by rw [h.anchor, htaken]; simp
  have hprevious : s.pace.previous = some last.1.timestamp := by
    rw [h.previous, htaken]
    simp [timestamps]
  have hhold : (s.pace.hold rates event.timestamp).1 = holdBehind rates speed last.1.timestamp event.timestamp := by
    rw [Pace.hold, hprevious, h.rate]
  have helapsed : elapsed rates speed (timestamps (taken past) ++ [event.timestamp]) =
      elapsed rates speed (timestamps (taken past)) +
        holdBehind rates speed last.1.timestamp event.timestamp := by
    rw [elapsed_concat, htaken]
    simp [timestamps]
  have hlast : last.2 = first.2 + 1000 * elapsed rates speed (timestamps (taken past)) := by
    have hk := h.targets first hfirst (by rw [helapsed] at hlatest; omega) front.length last
      (by rw [htaken]; simp)
    rwa [List.take_of_length_le (by rw [htaken]; simp)] at hk
  rw [helapsed] at hlatest
  rw [targetOf, hanchor, hhold, helapsed]
  change (checkedAdd latest last.2 _).getD last.2 = _
  rw [target_of_anchor (by rw [hlast]; omega), hlast]
  ring

theorem Kept.takes (h : Kept rates latest speed s past) {event : Event} (hplace : s.place = .reading) :
    let t := { s with now }.takes rates latest event
    Kept rates latest speed t (past ++ [(s, (.takes event, now), t)]) := by
  intro t
  set target := targetOf rates latest s now event
  have htaken : taken (past ++ [(s, (.takes event, now), t)]) = taken past ++ [(event, target)] :=
    taken_concat past s t (.takes event) now
  have hhanded : handed (past ++ [(s, (.takes event, now), t)]) = handed past :=
    (handed_concat past s t (.takes event) now).trans (List.append_nil _)
  have hall : (handed past).map Prod.fst = taken past := by
    have hold := h.all (by rw [hplace]; exact nofun)
    rwa [hplace, show Place.reading.waits = [] from rfl, List.append_nil] at hold
  have heq : (handed (past ++ [(s, (.takes event, now), t)])).map Prod.fst ++ t.place.waits =
      taken (past ++ [(s, (.takes event, now), t)]) := by
    rw [hhanded, htaken, hall]
    rfl
  constructor
  · exact h.rate
  · rw [htaken, timestamps_append]
    simp [timestamps, t, State.takes, Pace.hold]
  · rw [htaken, List.getLast?_concat]
    rfl
  · intro first hfirst hlatest k entry hentry
    rw [htaken, timestamps_append] at hlatest
    rw [htaken] at hfirst hentry ⊢
    rcases Nat.lt_or_ge k (taken past).length with hk | hk
    · rw [List.getElem?_append_left hk] at hentry
      rw [List.take_append_of_le_length hk]
      rw [List.head?_append_of_ne_nil _ (List.ne_nil_of_length_pos (by omega))] at hfirst
      refine h.targets first hfirst (le_trans ?_ hlatest) k entry hentry
      exact Nat.add_le_add_left (Nat.mul_le_mul_left _ (elapsed_isPrefix_le rates (List.prefix_append _ _))) _
    · rw [List.getElem?_append_right hk] at hentry
      have hentry : entry = (event, target) := List.mem_singleton.1 (List.mem_of_getElem? hentry)
      rw [List.take_of_length_le (by rw [List.length_append]; exact Nat.succ_le_succ hk), timestamps_append,
        hentry]
      cases hhead : (taken past).head? with
      | none =>
        rw [List.head?_append, hhead] at hfirst
        cases hfirst
        rw [List.head?_eq_none_iff.1 hhead]
        rfl
      | some first' =>
        rw [List.head?_append, hhead] at hfirst
        cases hfirst
        exact h.target_eq hhead hlatest
  · rw [heq]
  · exact fun _ => heq
  · rw [hhanded]
    exact h.late

theorem Kept.step (h : Kept rates latest speed s past) (hstep : step rates latest s (act, now) = some t) :
    Kept rates latest speed t (past ++ [(s, (act, now), t)]) := by
  cases stepped_of_step hstep with
  | takes hplace => exact h.takes hplace
  | look hplace =>
    cases hrunning : s.running with
    | true => exact h.goes rfl rfl rfl (fun _ => by simp [hplace, hands, Place.waits]) nofun nofun
    | false => exact h.goes rfl rfl rfl (fun hne => absurd rfl hne) (fun _ => rfl) nofun
  | skips hplace | wakes hplace | hands hplace =>
    exact h.goes rfl rfl rfl (fun _ => by simp [hplace, Paced.hands, Place.waits]) nofun nofun
  | ends hplace => exact h.goes rfl rfl rfl (fun hne => absurd rfl hne) (fun _ => rfl) nofun
  | due hplace hdue =>
    refine h.goes rfl rfl rfl (fun _ => by simp [hplace, Paced.hands, Place.waits]) nofun fun entry hentry => ?_
    cases List.mem_singleton.1 hentry
    exact hdue
  | sleeps hplace =>
    exact h.goes rfl rfl rfl (fun _ => by simp [hplace, Paced.hands, Place.waits]) nofun nofun
  | leaves hplace => exact h.goes rfl rfl rfl (fun hne => absurd rfl hne) (fun _ => rfl) nofun
  | close =>
    exact h.goes rfl rfl rfl (fun hne => ⟨hne, rfl⟩) (fun _ => rfl) nofun

theorem kept_of_run {acts : List (Act × ℕ)}
    (hrun : Machine.run (step rates latest) (start speed) acts = some s) :
    Kept rates latest speed s (Machine.transitions (step rates latest) (start speed) acts) := by
  have hhistory := Machine.run_history (P := Kept rates latest speed)
    (fun _ _ _ _ h hstep => h.step hstep) (kept_start speed) hrun
  rwa [List.nil_append] at hhistory

/-- The thread sleeps no longer than to the time of its event, and looks at `running` in between. -/
theorem sleeps_of_step (hstep : step rates latest s (act, now) = some t) {event : Event}
    {target wake : ℕ} (hact : act = .clock) (hplace : t.place = .sleeping event target wake) :
    wake ≤ target ∧ wake ≤ now + slice := by
  subst hact
  cases stepped_of_step hstep with
  | due | leaves => cases hplace
  | sleeps _ hearly =>
    cases hplace
    constructor
    · have := min_le_left (target - now) slice
      omega
    · exact Nat.add_le_add_left (min_le_right _ _) _

theorem sleeps_of_run {acts : List (Act × ℕ)}
    (hrun : Machine.run (step rates latest) (start speed) acts = some s) :
    ∀ entry ∈ Machine.transitions (step rates latest) (start speed) acts, ∀ event target wake,
      entry.2.1.1 = .clock → entry.2.2.place = .sleeping event target wake →
        wake ≤ target ∧ wake ≤ entry.2.1.2 + slice := by
  have hhistory := Machine.run_history (P := fun _ past => ∀ entry ∈ past, ∀ event target wake,
      entry.2.1.1 = .clock → entry.2.2.place = .sleeping event target wake →
        wake ≤ target ∧ wake ≤ entry.2.1.2 + slice)
    (fun s past act t hall hstep entry hentry => by
      rcases List.mem_append.1 hentry with hentry | hentry
      · exact hall entry hentry
      · cases List.mem_singleton.1 hentry
        exact fun event target wake => sleeps_of_step hstep)
    (List.forall_mem_nil _) hrun
  rwa [List.nil_append] at hhistory

/-- The times at the rate of the recording. -/
theorem elapsed_take_of_recorded {one : F} (hone : rates.IsOne one) {events : List (Event × ℕ)}
    {first entry : Event × ℕ} {k : ℕ} (hfirst : events.head? = some first) (hentry : events[k]? = some entry)
    (hrecorded : Recorded (timestamps events)) :
    (elapsed rates (.rate one) (timestamps (events.take (k + 1))) : ℤ) =
      entry.1.timestamp.toInt - first.1.timestamp.toInt := by
  cases events with
  | nil => cases hfirst
  | cons head rest =>
    cases hfirst
    have hchain : Recorded (timestamps ((first :: rest).take (k + 1))) := by
      refine List.IsChain.prefix hrecorded ?_
      exact (List.take_prefix _ _).map _
    have hlast : (timestamps (rest.take k)).getLastD first.1.timestamp = entry.1.timestamp := by
      rw [List.getLastD_eq_getLast?, timestamps, List.getLast?_map, List.getLast?_take]
      cases k with
      | zero =>
        cases hentry
        rfl
      | succ k =>
        rw [List.getElem?_cons_succ] at hentry
        simp [hentry]
    rw [List.take_succ_cons] at hchain ⊢
    exact (elapsed_eq_of_recorded hone hchain).trans (by rw [← hlast]; rfl)

/-- **A slow turn does not push the events behind it out of time.**  Each event that a replay takes up is
given the time of the first one and all the holds between them, whatever the reads, the sleeps and the
handler took; at the rate of the recording, and where the times of the log go up by no more than the
longest hold, that is the time that the log has between the two.  None is handed on before its time, or
out of their order, and no sleep goes beyond that time or lasts longer than a slice. -/
theorem keeps_its_times {acts : List (Act × ℕ)}
    (hrun : Machine.run (step rates latest) (start speed) acts = some s) :
    let past := Machine.transitions (step rates latest) (start speed) acts
    (∀ first, (taken past).head? = some first →
      first.2 + 1000 * elapsed rates speed (timestamps (taken past)) ≤ latest →
        ∀ k entry, (taken past)[k]? = some entry →
          entry.2 = first.2 + 1000 * elapsed rates speed (timestamps ((taken past).take (k + 1))) ∧
          ∀ one, speed = .rate one → rates.IsOne one → Recorded (timestamps (taken past)) →
            (entry.2 : ℤ) = first.2 + 1000 * (entry.1.timestamp.toInt - first.1.timestamp.toInt)) ∧
    ((handed past).map Prod.fst ++ s.place.waits <+: taken past) ∧
    (s.place ≠ .left → (handed past).map Prod.fst ++ s.place.waits = taken past) ∧
    (∀ entry ∈ handed past, entry.1.2 ≤ entry.2) ∧
    (∀ entry ∈ past, ∀ event target wake, entry.2.1.1 = .clock →
      entry.2.2.place = .sleeping event target wake → wake ≤ target ∧ wake ≤ entry.2.1.2 + slice) := by
  intro past
  have h := kept_of_run hrun
  refine ⟨fun first hfirst hlatest k entry hentry => ?_, h.order, h.all, h.late, sleeps_of_run hrun⟩
  have htarget := h.targets first hfirst hlatest k entry hentry
  refine ⟨htarget, fun one hspeed hone hrecorded => ?_⟩
  subst hspeed
  rw [htarget, Nat.cast_add, Nat.cast_mul, elapsed_take_of_recorded hone hfirst hentry hrecorded]
  rfl

/-- A log of three events that the recording took over half a second, and a slow handler. -/
def threeEvents : List (Act × ℕ) :=
  let event (number timestamp : Int64) : Event := ⟨number, timestamp, ⟨"a", []⟩⟩
  [(.look, 5), (.takes (event 0 1000000), 1000), (.clock, 1000), (.hands, 700000000),
    (.look, 700000000), (.takes (event 1 1400000), 700000000), (.clock, 700000000), (.hands, 700000000),
    (.look, 700000000), (.takes (event 2 1900000), 700000000), (.clock, 700000000), (.wakes, 800000000),
    (.clock, 800000000), (.wakes, 900000000), (.clock, 900001000), (.hands, 900001000)]

/-- The second one is late by the first one's handler, and the third one is in time. -/
theorem keeps_its_times_of_threeEvents :
    let rates : Rates Unit := ⟨fun _ => true, fun gap _ => gap⟩
    let past := Machine.transitions (step rates (2 ^ 63)) (start (.rate ())) threeEvents
    ∃ s, Machine.run (step rates (2 ^ 63)) (start (.rate ())) threeEvents = some s ∧
      (taken past).map Prod.snd = [1000, 1000 + 1000 * 400000, 1000 + 1000 * 900000] ∧
      (handed past).map Prod.snd = [1000, 700000000, 900001000] ∧
      ∀ third, (taken past)[2]? = some third → (third.2 : ℤ) = 1000 + 1000 * (1900000 - 1000000) := by
  intro rates past
  have hend : (Machine.run (step rates (2 ^ 63)) (start (.rate ())) threeEvents).isSome = true := by
    decide +kernel
  obtain ⟨s, hrun⟩ := Option.isSome_iff_exists.1 hend
  have htargets : (taken past).map Prod.snd = [1000, 1000 + 1000 * 400000, 1000 + 1000 * 900000] := by
    decide +kernel
  have htimes : timestamps (taken past) = [1000000, 1400000, 1900000] := by decide +kernel
  have hrecorded : Recorded (timestamps (taken past)) := by
    rw [htimes]
    unfold Recorded
    decide +kernel
  refine ⟨s, hrun, htargets, by decide +kernel, fun third hthird => ?_⟩
  obtain ⟨first, hfirst, hstamp, hstart⟩ : ∃ first, (taken past).head? = some first ∧
      first.1.timestamp = 1000000 ∧ first.2 = 1000 := ⟨_, rfl, rfl, rfl⟩
  have hlast : third.1.timestamp = 1900000 := by
    have hsome : ((taken past)[2]?).map (fun entry => entry.1.timestamp) = some 1900000 := by decide +kernel
    rw [hthird] at hsome
    exact Option.some.inj hsome
  obtain ⟨htimes', -⟩ := keeps_its_times hrun
  have hlatest : first.2 + 1000 * elapsed rates (.rate ()) (timestamps (taken past)) ≤ 2 ^ 63 := by
    rw [hstart, htimes]
    decide +kernel
  have htime := (htimes' first hfirst hlatest 2 third hthird).2 () rfl ⟨rfl, fun _ _ => rfl⟩ hrecorded
  rw [hstart, hstamp, hlast] at htime
  exact htime

end LcmBus.Paced
