import LcmBus.Bus.BusUrl
import Mathlib.Data.List.Induction

/-!
# The pace of a replay

`Pace` of `bus.rs`: how long a replay holds before each event, so that it goes at the rate of the
recording.

* `Pace.hold`: the hold before one event, in microseconds;
* `elapsed`: all the holds from the first event of a log to the last one;
* `elapsed_eq_of_recorded`: at the rate of the recording they come to the time between the two.

The arithmetic of `f64` is a parameter.
-/

namespace LcmBus

open Url (Speed)

/-- What a hold needs of `f64`. -/
structure Rates (F : Type) where
  /-- The comparison `rate > 0.0`. -/
  positive : F → Bool
  /-- `(gap as f64 / rate) as u64`. -/
  quotient : ℕ → F → ℕ

variable {F : Type} (rates : Rates F)

/-- A rate that changes nothing, as `1.0` does where an `f64` holds the gap. -/
structure Rates.IsOne (one : F) : Prop where
  positive : rates.positive one = true
  quotient : ∀ gap, gap < 2 ^ 53 → rates.quotient gap one = gap

/-- The longest a replay holds between two events, in microseconds. -/
def longestHold : ℕ := 60 * 60 * 10 ^ 6

/-- What is between two times that a log holds, which is not always a number of the same width. -/
def gap (was timestamp : Int64) : ℕ :=
  let between := timestamp.toInt - was.toInt
  if -2 ^ 63 ≤ between ∧ between < 2 ^ 63 then between.toNat else 0

/-- The hold before an event behind the one at `was`. -/
def holdBehind (speed : Speed F) (was timestamp : Int64) : ℕ :=
  match speed with
  | .rate rate => if rates.positive rate then min (rates.quotient (gap was timestamp) rate) longestHold else 0
  | .unthrottled => 0

structure Pace (F : Type) where
  speed : Speed F
  previous : Option Int64

def Pace.new (speed : Speed F) : Pace F := ⟨speed, none⟩

/-- How long to hold before the event at `timestamp`. -/
def Pace.hold (pace : Pace F) (timestamp : Int64) : ℕ × Pace F :=
  (match pace.previous with
    | some was => holdBehind rates pace.speed was timestamp
    | none => 0,
    { pace with previous := some timestamp })

theorem holdBehind_le (speed : Speed F) (was timestamp : Int64) :
    holdBehind rates speed was timestamp ≤ longestHold := by
  unfold holdBehind
  split
  · split
    · exact min_le_right _ _
    · exact Nat.zero_le _
  · exact Nat.zero_le _

/-- All the holds of a log, where the event in front of it is at `was`. -/
def elapsedBehind (speed : Speed F) : Int64 → List Int64 → ℕ
  | _, [] => 0
  | was, timestamp :: rest => holdBehind rates speed was timestamp + elapsedBehind speed timestamp rest

/-- All the holds of a log.  The first event holds for nothing. -/
def elapsed (speed : Speed F) : List Int64 → ℕ
  | [] => 0
  | first :: rest => elapsedBehind rates speed first rest

theorem elapsedBehind_concat (speed : Speed F) (was : Int64) (timestamps : List Int64) (timestamp : Int64) :
    elapsedBehind rates speed was (timestamps ++ [timestamp]) =
      elapsedBehind rates speed was timestamps +
        holdBehind rates speed (timestamps.getLastD was) timestamp := by
  induction timestamps generalizing was with
  | nil => simp [elapsedBehind]
  | cons first rest ih =>
    rw [List.cons_append, elapsedBehind, ih, elapsedBehind, List.getLastD_cons, Nat.add_assoc]

/-- Each event adds its own hold. -/
theorem elapsed_concat (speed : Speed F) (timestamps : List Int64) (timestamp : Int64) :
    elapsed rates speed (timestamps ++ [timestamp]) =
      elapsed rates speed timestamps + match timestamps.getLast? with
        | some was => holdBehind rates speed was timestamp
        | none => 0 := by
  cases timestamps with
  | nil => rfl
  | cons first rest =>
    rw [List.cons_append, elapsed, elapsedBehind_concat, elapsed, List.getLast?_cons]
    rw [List.getLastD_eq_getLast?]

theorem elapsed_isPrefix_le {speed : Speed F} {front all : List Int64} (h : front <+: all) :
    elapsed rates speed front ≤ elapsed rates speed all := by
  obtain ⟨rest, rfl⟩ := h
  induction rest using List.reverseRecOn with
  | nil => simp
  | append_singleton rest timestamp ih =>
    rw [← List.append_assoc, elapsed_concat]
    exact ih.trans (Nat.le_add_right _ _)

/-- The times of a log that go up, by no more than a hold can be. -/
def Recorded : List Int64 → Prop := List.IsChain fun was timestamp =>
  was.toInt ≤ timestamp.toInt ∧ timestamp.toInt - was.toInt ≤ longestHold

theorem holdBehind_of_recorded {rates : Rates F} {one : F} (hone : rates.IsOne one) {was timestamp : Int64}
    (hle : was.toInt ≤ timestamp.toInt) (hgap : timestamp.toInt - was.toInt ≤ longestHold) :
    (holdBehind rates (.rate one) was timestamp : ℤ) = timestamp.toInt - was.toInt := by
  have hlongest : (longestHold : ℤ) = 3600000000 := rfl
  have heq : gap was timestamp = (timestamp.toInt - was.toInt).toNat := by
    unfold gap
    rw [if_pos]
    omega
  have hover := hone.quotient (gap was timestamp) (by rw [heq]; omega)
  change ((if rates.positive one = true then min _ _ else 0 : ℕ) : ℤ) = _
  rw [if_pos hone.positive, hover, heq]
  have : (timestamp.toInt - was.toInt).toNat ≤ longestHold := by omega
  rw [min_eq_left this]
  omega

/-- **At the rate of the recording, the holds come to the time between the first event and the last.** -/
theorem elapsed_eq_of_recorded {rates : Rates F} {one : F} (hone : rates.IsOne one) {first : Int64}
    {rest : List Int64} (h : Recorded (first :: rest)) :
    (elapsed rates (.rate one) (first :: rest) : ℤ) = (rest.getLastD first).toInt - first.toInt := by
  change (elapsedBehind rates (.rate one) first rest : ℤ) = _
  induction rest generalizing first with
  | nil => simp [elapsedBehind]
  | cons timestamp rest ih =>
    obtain ⟨⟨hle, hgap⟩, hrest⟩ := List.isChain_cons_cons.1 h
    have hhold := holdBehind_of_recorded hone hle hgap
    rw [elapsedBehind, Nat.cast_add, hhold, ih hrest, List.getLastD_cons]
    omega

end LcmBus
