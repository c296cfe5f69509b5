import LcmBus.Lib.Run
import LcmBus.Bus.ReadBuffer

/-!
# Runs of a read buffer

A buffer is used in three ways, in any order: bytes go into its `spare` part and `filled` says how
many, a decoder gives back what it took with `consume`, and `reserve` asks for room.  `use` answers a
use with what it moved.

* `conserves`: what a use fills in goes behind the unread bytes, and what it consumes comes off the
  front of them;
* `lossless_queue`: over a run, all that was filled in is all that was consumed with the unread bytes
  behind it;
* `length_use_le`: the length of the buffer behind a use, against the bytes that were unread;
* `a_claim_buys_no_room`: a run never has more room than what arrived was worth.
-/

namespace LcmBus

open Machine

namespace ReadBuffer

/-- `spare`, as it is when it is given out: there is room for it then. -/
def spare (b : ReadBuffer) : Bytes := b.makeRoom.behind

/-- One use of a buffer. -/
inductive Use
  /-- `spare`, `bytes` put at the front of it, and `filled`. -/
  | fill (bytes : Bytes) (count : ℕ)
  | consume (count : ℕ)
  | reserve (count : ℕ)
  deriving DecidableEq, Repr

/-- What a use moved, or whether it was granted. -/
inductive Gave
  | filled (bytes : Bytes)
  | consumed (bytes : Bytes)
  | reserved (granted : Bool)
  deriving DecidableEq, Repr

def Gave.filledIn : Gave → Bytes
  | .filled bytes => bytes
  | _ => []

def Gave.takenOut : Gave → Bytes
  | .consumed bytes => bytes
  | _ => []

/-- A use, with what it answers. -/
def use (b : ReadBuffer) : Use → Gave × ReadBuffer
  | .fill bytes count =>
    (.filled ((overwrite bytes b.spare).take count), (b.makeRoom.put bytes).filled count)
  | .consume count => (.consumed (b.unread.take count), b.consume count)
  | .reserve count =>
    match b.reserve count with
    | some b' => (.reserved true, b')
    | none => (.reserved false, b)

/-! ### What one use does -/

theorem use_reserve_of_le {b : ReadBuffer} {count : ℕ} (h : count ≤ b.ceiling) :
    use b (.reserve count) = (.reserved true, { b with wanted := count }.makeRoom) := by
  simp [use, reserve, Nat.not_lt.2 h]

theorem use_reserve_of_lt {b : ReadBuffer} {count : ℕ} (h : b.ceiling < count) :
    use b (.reserve count) = (.reserved false, b) := by
  simp [use, reserve, h]

variable (b : ReadBuffer)

/-- A use gives out the front of what was unread, or puts what it is given behind it. -/
theorem conserves (u : Use) :
    b.unread ++ (use b u).1.filledIn = (use b u).1.takenOut ++ (use b u).2.unread := by
  cases u with
  | fill bytes count =>
    change b.unread ++ _ = [] ++ ((b.makeRoom.put bytes).filled count).unread
    rw [unread_put_filled, unread_makeRoom]
    rfl
  | consume count =>
    change b.unread ++ [] = b.unread.take count ++ (b.consume count).unread
    rw [List.append_nil, unread_consume, List.take_append_drop]
  | reserve count =>
    by_cases h : count ≤ b.ceiling
    · rw [use_reserve_of_le h]
      simp only [Gave.filledIn, Gave.takenOut, unread_makeRoom, List.append_nil, List.nil_append]
      rfl
    · rw [use_reserve_of_lt (by omega)]
      simp [Gave.filledIn, Gave.takenOut]

/-- No use changes the limits. -/
theorem limits_use (u : Use) : (use b u).2.floor = b.floor ∧ (use b u).2.ceiling = b.ceiling := by
  cases u with
  | fill bytes count => exact ⟨b.floor_makeRoom, b.ceiling_makeRoom⟩
  | consume count => exact ⟨b.floor_consume count, b.ceiling_consume count⟩
  | reserve count =>
    by_cases h : count ≤ b.ceiling
    · rw [use_reserve_of_le h]
      exact ⟨floor_makeRoom _, ceiling_makeRoom _⟩
    · rw [use_reserve_of_lt (by omega)]
      exact ⟨rfl, rfl⟩

theorem fill_nothing : (b.put []).filled 0 = b := by
  cases b
  simpa [put, filled] using ‹_›

/-- A read that fails is a use that fills nothing in, and any other fills in what it gave. -/
theorem exists_use_eq_fillFrom (source : Source) :
    ∃ bytes count, (b.fillFrom source).2.1 = (use b (.fill bytes count)).2 := by
  unfold fillFrom
  by_cases hroom : b.makeRoom.room = 0
  · rw [if_pos hroom]
    exact ⟨[], 0, (fill_nothing _).symm⟩
  · rw [if_neg hroom]
    rcases source.read b.makeRoom.room with ⟨_ | bytes, _⟩
    · exact ⟨[], 0, (fill_nothing _).symm⟩
    · exact ⟨bytes, bytes.length, rfl⟩

theorem length_spare : b.spare.length = b.makeRoom.room := List.length_drop

/-- There is room to read into below the ceiling, and none at it. -/
theorem spare_ne_nil (h : b.unread.length < b.ceiling) : b.spare ≠ [] := by
  have hroom := b.room_pos h
  rw [← length_spare] at hroom
  exact List.ne_nil_of_length_pos hroom

/-- The error of a full buffer is for a buffer that is at its ceiling. -/
theorem unread_of_outOfMemory {source : Source} (h : (b.fillFrom source).1 = .error .outOfMemory) :
    b.unread.length = b.ceiling := by
  have hle : b.unread.length ≤ b.ceiling := by
    have hstop := b.stop_le
    have hceiling := b.le_ceiling
    rw [length_unread]
    omega
  refine hle.antisymm (Nat.le_of_not_lt fun hlt => ?_)
  -- Below the ceiling the answer is the source's, and no source answers so.
  rw [fillFrom, if_neg (b.room_pos hlt).ne'] at h
  obtain ⟨rest, _ | ⟨_ | _ | _, cuts⟩⟩ := source <;> cases h

/-- No bytes are what the source gave, and not what there was room for. -/
theorem read_of_fillFrom_zero {source : Source} (h : (b.fillFrom source).1 = .ok 0) :
    b.spare ≠ [] ∧ (source.read b.spare.length).1 = .ok [] := by
  rw [length_spare]
  unfold fillFrom at h
  by_cases hroom : b.makeRoom.room = 0
  · rw [if_pos hroom] at h
    cases h
  · rw [if_neg hroom] at h
    refine ⟨fun hnil => hroom (by rw [← length_spare, hnil]; rfl), ?_⟩
    rcases hread : source.read b.makeRoom.room with ⟨_ | bytes, _⟩
    · rw [hread] at h
      cases h
    · rw [hread] at h
      rw [List.eq_nil_of_length_eq_zero (Except.ok.inj h)]

/-! ### What a run of them does -/

theorem limits_final (floor ceiling : ℕ) (uses : List Use) :
    (final use (withLimits floor ceiling) uses).floor = max floor 1 ∧
      (final use (withLimits floor ceiling) uses).ceiling = max ceiling (max floor 1) :=
  final_invariant
    (P := fun b : ReadBuffer => b.floor = max floor 1 ∧ b.ceiling = max ceiling (max floor 1))
    (fun b u h => ⟨(b.limits_use u).1.trans h.1, (b.limits_use u).2.trans h.2⟩) uses ⟨rfl, rfl⟩

/-- **A read buffer is a lossless queue.**  All that was filled in is all that was taken out, with the
unread bytes behind it; and there is room for more up to the ceiling. -/
theorem lossless_queue (floor ceiling : ℕ) (uses : List Use) :
    let most := max ceiling (max floor 1)
    let gave := answers use (withLimits floor ceiling) uses
    let b := final use (withLimits floor ceiling) uses
    gave.flatMap Gave.filledIn = gave.flatMap Gave.takenOut ++ b.unread ∧
    (b.start ≤ b.stop ∧ b.stop ≤ b.buffer.length) ∧
    (max floor 1 ≤ b.buffer.length ∧ b.buffer.length ≤ most) ∧
    (∀ count, (use b (.reserve count)).1 = .reserved false →
      most < count ∧ (use b (.reserve count)).2 = b) ∧
    (b.unread.length < most → b.spare ≠ []) ∧
    ∀ source, ((b.fillFrom source).1 = .error .outOfMemory → b.unread.length = most) ∧
      ((b.fillFrom source).1 = .ok 0 → b.spare ≠ [] ∧ (source.read b.spare.length).1 = .ok []) ∧
      ∃ bytes count, (b.fillFrom source).2.1 = (use b (.fill bytes count)).2 := by
  intro most gave b
  obtain ⟨hfloor, hceiling⟩ : b.floor = max floor 1 ∧ b.ceiling = most :=
    limits_final floor ceiling uses
  refine ⟨?_, ⟨b.start_le, b.stop_le⟩, ⟨hfloor.symm.trans_le b.floor_le, b.le_ceiling.trans_eq hceiling⟩,
    ?_, ?_, ?_⟩
  · exact final_conserves unread Gave.filledIn Gave.takenOut conserves (withLimits floor ceiling) uses
  · intro count hrefused
    rcases le_or_gt count b.ceiling with hle | hlt
    · rw [use_reserve_of_le hle] at hrefused
      cases hrefused
    · rw [use_reserve_of_lt hlt]
      exact ⟨hceiling.symm.trans_lt hlt, rfl⟩
  · exact fun hlt => b.spare_ne_nil (hlt.trans_eq hceiling.symm)
  · exact fun source => ⟨fun h => (b.unread_of_outOfMemory h).trans hceiling,
      b.read_of_fillFrom_zero, b.exists_use_eq_fillFrom source⟩

/-! ### What room a run of them buys -/

/-- A full buffer doubles, and only the unread bytes fill it. -/
theorem length_makeRoom_le :
    b.makeRoom.buffer.length ≤ max b.buffer.length (2 * b.unread.length) := by
  have hlen := b.length_unread
  have hstop := b.stop_le
  unfold makeRoom
  split_ifs with hempty
  · simp only [shrink]
    split_ifs <;> simp
    omega
  · -- Where it is full behind the move, the unread bytes start at the front of it.
    have hmoved : b.moveDown.buffer.length = b.buffer.length := by
      unfold moveDown
      split_ifs
      · simp only [List.length_append, List.length_drop, hlen]
        omega
      · rfl
    have hfull : b.moveDown.stop = b.moveDown.buffer.length → b.unread.length = b.buffer.length := by
      rw [hmoved, hlen]
      unfold moveDown
      split_ifs with h
      · exact id
      · exact fun hstop => absurd (.inr hstop) h
    unfold grow
    split_ifs with hgrow
    · simp only [List.length_append, List.length_replicate, hfull hgrow.1, hmoved]
      omega
    · rw [hmoved]
      exact le_max_left _ _

/-- What a use makes of the length is what making room makes of it. -/
theorem length_use_le (u : Use) :
    (use b u).2.buffer.length ≤ max b.buffer.length (2 * b.unread.length) := by
  cases u with
  | fill bytes count =>
    have hput : ((b.makeRoom.put bytes).filled count).buffer.length = b.makeRoom.buffer.length := by
      have hstop := b.makeRoom.stop_le
      simp [put, filled, room]
      omega
    exact hput.trans_le b.length_makeRoom_le
  | consume count =>
    have hlen : (b.consume count).buffer = b.buffer := by
      unfold consume
      split_ifs <;> rfl
    exact (congrArg List.length hlen).trans_le (le_max_left _ _)
  | reserve count =>
    rcases le_or_gt count b.ceiling with h | h
    · rw [use_reserve_of_le h]
      exact length_makeRoom_le _
    · rw [use_reserve_of_lt h]
      exact le_max_left _ _

/-- Where nothing is unread and nothing asked for, a buffer goes back to its floor. -/
theorem length_makeRoom_of_empty (hempty : b.start = b.stop) (hwanted : b.wanted = 0) :
    b.makeRoom.buffer.length = b.floor := by
  have hfloor := b.floor_le
  rw [makeRoom, if_pos hempty]
  simp only [shrink, hwanted, Nat.max_zero]
  split_ifs
  · exact List.length_replicate
  · omega

theorem wanted_consume {count : ℕ} (h : count ≠ 0) : (b.consume count).wanted = 0 := by
  rw [consume, if_neg h]

/-- Only a reserve that is granted asks for room. -/
theorem wanted_use {b : ReadBuffer} {u : Use} (h : b.wanted = 0)
    (hgave : (use b u).1 ≠ .reserved true) : (use b u).2.wanted = 0 := by
  cases u with
  | fill bytes count => exact b.wanted_makeRoom.trans h
  | consume count =>
    change (b.consume count).wanted = 0
    unfold consume
    split_ifs
    · exact h
    · rfl
  | reserve count =>
    rcases le_or_gt count b.ceiling with hle | hlt
    · rw [use_reserve_of_le hle] at hgave
      exact absurd rfl hgave
    · rwa [use_reserve_of_lt hlt]

/-- Nothing is reserved behind the last `consume` that is not of zero, or behind the start. -/
def Unreserved (b : ReadBuffer) (uses : List Use) : Prop :=
  ∃ before behind, uses = before ++ behind ∧
    (before = [] ∨ ∃ front count, before = front ++ [.consume count] ∧ count ≠ 0) ∧
    .reserved true ∉ answers use (final use b before) behind

theorem wanted_final {b : ReadBuffer} {uses : List Use} (hb : b.wanted = 0)
    (h : .reserved true ∉ answers use b uses) : (final use b uses).wanted = 0 := by
  induction uses generalizing b with
  | nil => exact hb
  | cons u uses ih =>
    rw [answers_cons, List.mem_cons, not_or] at h
    exact ih (wanted_use hb (Ne.symm h.1)) h.2

theorem wanted_of_unreserved {b : ReadBuffer} {uses : List Use} (hb : b.wanted = 0)
    (h : Unreserved b uses) : (final use b uses).wanted = 0 := by
  obtain ⟨before, behind, rfl, hbefore, hbehind⟩ := h
  rw [final_append]
  refine wanted_final ?_ hbehind
  rcases hbefore with rfl | ⟨front, count, rfl, hcount⟩
  · exact hb
  · rw [final_concat]
    exact wanted_consume _ hcount

/-- The unread bytes that are held at one time. -/
def held (b : ReadBuffer) : ℕ := b.unread.length

/-- **A claim buys no room.**  What a buffer holds room for is two times the most it ever held unread,
and a buffer with nothing in it and nothing reserved goes back to its floor. -/
theorem a_claim_buys_no_room (floor ceiling : ℕ) (uses : List Use) :
    let b := final use (withLimits floor ceiling) uses
    b.buffer.length ≤ max (max floor 1) (2 * peak use held (withLimits floor ceiling) uses) ∧
    (b.unread = [] → Unreserved (withLimits floor ceiling) uses →
      b.makeRoom.buffer.length = max floor 1 ∧ b.spare.length = max floor 1) := by
  intro b
  constructor
  · refine final_invariant_of_peak held
      (P := fun b : ReadBuffer => b.buffer.length ≤ max (max floor 1) (2 * peak use held _ uses))
      (fun b u hlen hheld => ?_) uses (List.length_replicate.trans_le (le_max_left _ _)) le_rfl
    have hstep := b.length_use_le u
    rw [held] at hheld
    omega
  · intro hempty hunreserved
    have hfloor : b.floor = max floor 1 := (limits_final floor ceiling uses).1
    have hmarks := b.unread_eq_nil_iff.1 hempty
    have hlen := b.length_makeRoom_of_empty hmarks (wanted_of_unreserved rfl hunreserved)
    have hroom : b.makeRoom.room ≤ b.makeRoom.buffer.length := Nat.sub_le _ _
    refine ⟨hlen.trans hfloor, ?_⟩
    rw [length_spare, ← hfloor]
    exact (hroom.trans_eq hlen).antisymm (b.floor_le_room hmarks)

/-- A buffer that four bytes made grow is two bytes long again when they are taken out: what was
reserved before that takes no room, and what is refused behind it takes none. -/
theorem a_claim_buys_no_room_of_two :
    let taken : List Use := [.fill [1, 2] 2, .fill [3, 4] 2, .reserve 8, .consume 4]
    (final use (withLimits 2 8) (taken ++ [.reserve 9])).buffer.length = 8 ∧
    (final use (withLimits 2 8) (taken ++ [.reserve 9])).makeRoom.buffer.length = 2 := by
  intro taken
  have hunreserved : Unreserved (withLimits 2 8) (taken ++ [.reserve 9]) :=
    ⟨taken, [.reserve 9], rfl, .inr ⟨taken.dropLast, 4, rfl, by decide⟩, by decide⟩
  exact ⟨rfl, ((a_claim_buys_no_room 2 8 (taken ++ [.reserve 9])).2 rfl hunreserved).1⟩

end ReadBuffer

end LcmBus
