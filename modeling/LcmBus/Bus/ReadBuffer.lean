import LcmBus.Wire.Basic

/-!
# The buffer of a stream

`ReadBuffer` of `bus.rs`, which holds the bytes of a stream that do not make a frame yet, and the
source it is filled from.

* `ReadBuffer`: the bytes, the two marks in them, and the limits, with what holds of them;
* `reserve`, `unread`, `consume`, `room`, `filled`, `makeRoom` under their names in the source;
* `Source` and `fillFrom`: a file or a socket, with what each `read` of it comes to;
* `unread_put_filled` and the other lemmas on `unread`: no byte is lost, and none comes twice, whatever is moved, grown or shrunk;
* `room_pos`: there is room to read into below the ceiling.

The bytes that are not unread are what the last move or read left there.
-/

namespace LcmBus

/-- Unread bytes between two marks of a buffer. -/
structure ReadBuffer where
  buffer : Bytes
  start : ℕ
  /-- `end` in the source. -/
  stop : ℕ
  floor : ℕ
  ceiling : ℕ
  wanted : ℕ
  start_le : start ≤ stop
  stop_le : stop ≤ buffer.length
  floor_pos : 0 < floor
  floor_le : floor ≤ buffer.length
  le_ceiling : buffer.length ≤ ceiling

namespace ReadBuffer

/-- `ceiling` is the most this will ever hold. -/
def withLimits (floor ceiling : ℕ) : ReadBuffer where
  buffer := List.replicate (max floor 1) 0
  start := 0
  stop := 0
  floor := max floor 1
  ceiling := max ceiling (max floor 1)
  wanted := 0
  start_le := le_rfl
  stop_le := Nat.zero_le _
  floor_pos := by omega
  floor_le := by simp
  le_ceiling := by simp

/-- The bytes a decoder has not taken. -/
def unread (b : ReadBuffer) : Bytes := (b.buffer.take b.stop).drop b.start

/-- An empty buffer that one large frame grew goes back to what is asked for. -/
def shrink (b : ReadBuffer) : ReadBuffer :=
  let keep := max b.floor b.wanted
  { b with
    start := 0
    stop := 0
    buffer := if b.buffer.length > keep then List.replicate keep 0 else b.buffer
    start_le := le_rfl
    stop_le := Nat.zero_le _
    floor_le := by
      have := b.floor_le
      split_ifs <;> simp [keep]
      omega
    le_ceiling := by
      have := b.le_ceiling
      split_ifs <;> simp <;> omega }

theorem length_unread (b : ReadBuffer) : b.unread.length = b.stop - b.start := by
  have := b.stop_le
  simp [unread]
  omega

/-- The unread bytes move down when most of the buffer is behind them. -/
def moveDown (b : ReadBuffer) : ReadBuffer :=
  if b.start * 2 ≥ b.buffer.length ∨ b.stop = b.buffer.length then
    { b with
      buffer := b.unread ++ b.buffer.drop (b.stop - b.start)
      start := 0
      stop := b.stop - b.start
      start_le := Nat.zero_le _
      stop_le := by simp [length_unread]
      floor_le := by
        have := b.stop_le
        have := b.floor_le
        simp [length_unread]
        omega
      le_ceiling := by
        have := b.stop_le
        have := b.le_ceiling
        simp [length_unread]
        omega }
  else b

/-- A full buffer doubles, up to its ceiling. -/
def grow (b : ReadBuffer) : ReadBuffer :=
  if b.stop = b.buffer.length ∧ b.buffer.length < b.ceiling then
    { b with
      buffer := b.buffer ++
        List.replicate (min (b.buffer.length * 2) b.ceiling - b.buffer.length) 0
      stop_le := b.stop_le.trans (by simp)
      floor_le := b.floor_le.trans (by simp)
      le_ceiling := by
        have := b.le_ceiling
        simp
        omega }
  else b

def makeRoom (b : ReadBuffer) : ReadBuffer :=
  if b.start = b.stop then b.shrink else b.moveDown.grow

/-- Room for `bytes` of unread stream, or none where that is above the ceiling. -/
def reserve (b : ReadBuffer) (bytes : ℕ) : Option ReadBuffer :=
  if bytes > b.ceiling then none else some { b with wanted := bytes }.makeRoom

/-- Gives back what a decoder took. -/
def consume (b : ReadBuffer) (bytes : ℕ) : ReadBuffer :=
  if bytes = 0 then b
  else { b with
    start := min (b.start + bytes) b.stop
    wanted := 0
    start_le := Nat.min_le_right _ _ }

/-- The length of `spare`, which is behind the unread bytes. -/
def room (b : ReadBuffer) : ℕ := b.buffer.length - b.stop

/-- A read puts `bytes` at the front of `spare`. -/
def put (b : ReadBuffer) (bytes : Bytes) : ReadBuffer :=
  { b with
    buffer := b.buffer.take b.stop ++ bytes.take b.room ++ b.buffer.drop (b.stop + bytes.length)
    stop_le := by
      have := b.stop_le
      simp
      omega
    floor_le := by
      have := b.stop_le
      have := b.floor_le
      simp [room]
      omega
    le_ceiling := by
      have := b.stop_le
      have := b.le_ceiling
      simp [room]
      omega }

/-- What the buffer has behind the unread bytes. -/
def behind (b : ReadBuffer) : Bytes := b.buffer.drop b.stop

/-- What is where `old` was when `bytes` are put at the front of it. -/
def overwrite (bytes old : Bytes) : Bytes := bytes.take old.length ++ old.drop bytes.length

/-- How many of the spare bytes a read wrote. -/
def filled (b : ReadBuffer) (bytes : ℕ) : ReadBuffer :=
  { b with
    stop := min (b.stop + bytes) b.buffer.length
    start_le := by
      have := b.start_le
      have := b.stop_le
      omega
    stop_le := Nat.min_le_right _ _ }

end ReadBuffer

/-! ### What fills it -/

/-- What the next `read` of a source comes to. -/
inductive Cut
  /-- As many bytes, and one more, where there are so many and so much room. -/
  | bytes (more : ℕ)
  | timedOut
  | failed
  deriving DecidableEq, Repr

/-- A file or a socket: the bytes that are still to be read, and how the reads cut them.  Behind the
cuts a read gives all there is room for. -/
structure Source where
  rest : Bytes
  cuts : List Cut

/-- The errors of a read: one that this crate makes itself, and any other. -/
inductive IoError
  | outOfMemory
  | timedOut
  | other
  deriving DecidableEq, Repr

/-- `std::io::Read::read`, into so much room.  No bytes is the end. -/
def Source.read (s : Source) (room : ℕ) : Except IoError Bytes × Source :=
  match s.cuts with
  | [] => (.ok (s.rest.take room), ⟨s.rest.drop room, []⟩)
  | .bytes more :: cuts =>
    let len := min (more + 1) room
    (.ok (s.rest.take len), ⟨s.rest.drop len, cuts⟩)
  | .timedOut :: cuts => (.error .timedOut, ⟨s.rest, cuts⟩)
  | .failed :: cuts => (.error .other, ⟨s.rest, cuts⟩)

/-- `is_timeout`. -/
def isTimeout : IoError → Bool
  | .timedOut => true
  | _ => false

/-- A read goes into the spare part, so a frame is not copied two times. -/
def ReadBuffer.fillFrom (b : ReadBuffer) (source : Source) :
    Except IoError ℕ × ReadBuffer × Source :=
  let b := b.makeRoom
  if b.room = 0 then (.error .outOfMemory, b, source)
  else
    match source.read b.room with
    | (.ok bytes, source) => (.ok bytes.length, (b.put bytes).filled bytes.length, source)
    | (.error e, source) => (.error e, b, source)

namespace ReadBuffer

variable (b : ReadBuffer)

/-! ### What the operations do to the unread bytes -/

theorem unread_eq_nil_iff : b.unread = [] ↔ b.start = b.stop := by
  have hstart := b.start_le
  rw [← List.length_eq_zero_iff, length_unread]
  omega

theorem unread_shrink (h : b.start = b.stop) : b.shrink.unread = b.unread := by
  rw [b.unread_eq_nil_iff.2 h]
  rfl

@[simp] theorem unread_moveDown : b.moveDown.unread = b.unread := by
  unfold moveDown
  split_ifs
  · exact List.take_left' b.length_unread
  · rfl

@[simp] theorem unread_grow : b.grow.unread = b.unread := by
  unfold grow
  split_ifs
  · rw [unread, List.take_append_of_le_length b.stop_le]
    rfl
  · rfl

@[simp] theorem unread_makeRoom : b.makeRoom.unread = b.unread := by
  unfold makeRoom
  split_ifs with hempty
  · exact b.unread_shrink hempty
  · simp

@[simp] theorem ceiling_makeRoom : b.makeRoom.ceiling = b.ceiling := by
  unfold makeRoom moveDown grow
  split_ifs <;> rfl

@[simp] theorem floor_makeRoom : b.makeRoom.floor = b.floor := by
  unfold makeRoom moveDown grow
  split_ifs <;> rfl

@[simp] theorem wanted_makeRoom : b.makeRoom.wanted = b.wanted := by
  unfold makeRoom moveDown grow
  split_ifs <;> rfl

/-- There is room to read into where the unread bytes are below the ceiling. -/
theorem room_pos (h : b.unread.length < b.ceiling) : 0 < b.makeRoom.room := by
  have hlen := b.length_unread
  have hstop := b.stop_le
  have hfloor := b.floor_le
  have hpos := b.floor_pos
  unfold makeRoom
  split_ifs with hempty
  · simp only [shrink, room]
    split_ifs <;> simp <;> omega
  · -- A move leaves the buffer full only where no byte of it is behind the unread ones.
    have hceiling : b.moveDown.ceiling = b.ceiling := by
      unfold moveDown
      split_ifs <;> rfl
    have hmoved : b.moveDown.stop < b.moveDown.buffer.length ∨
        b.moveDown.buffer.length < b.ceiling := by
      unfold moveDown
      split_ifs
      · simp only [List.length_append, List.length_drop, hlen]
        omega
      · left
        omega
    have hstop' := b.moveDown.stop_le
    have hpos' := b.moveDown.floor_pos.trans_le b.moveDown.floor_le
    unfold grow
    split_ifs with hfull
    · simp only [room, List.length_append, List.length_replicate]
      omega
    · simp only [room]
      omega

/-- A buffer with nothing in it has room for what it started with. -/
theorem floor_le_room (h : b.start = b.stop) : b.floor ≤ b.makeRoom.room := by
  have hfloor := b.floor_le
  rw [makeRoom, if_pos h]
  simp only [shrink, room]
  split_ifs <;> simp
  omega

/-- Of what is behind the unread bytes when a read has put some there, as many as it says are unread
too. -/
theorem unread_put_filled (bytes : Bytes) (n : ℕ) :
    ((b.put bytes).filled n).unread = b.unread ++ (overwrite bytes b.behind).take n := by
  have hstart := b.start_le
  have hstop := b.stop_le
  have hbuffer : (b.put bytes).buffer = b.buffer.take b.stop ++ overwrite bytes b.behind := by
    simp [put, overwrite, behind, room]
  have hfront : (b.buffer.take b.stop).length = b.stop := by simp; omega
  have htake : (b.put bytes).buffer.take (min (b.stop + n) (b.put bytes).buffer.length) =
      b.buffer.take b.stop ++ (overwrite bytes b.behind).take n := by
    rw [← List.take_eq_take_min, hbuffer, List.take_append, List.take_take, hfront,
      Nat.min_eq_right (by omega), Nat.add_sub_cancel_left]
  calc ((b.put bytes).filled n).unread
      = ((b.put bytes).buffer.take (min (b.stop + n) (b.put bytes).buffer.length)).drop b.start := rfl
    _ = b.unread ++ (overwrite bytes b.behind).take n := by
      rw [htake, List.drop_append_of_le_length (hstart.trans hfront.ge), unread]

/-- What a read wrote is behind what was unread. -/
theorem unread_filled {bytes : Bytes} (h : bytes.length ≤ b.room) :
    ((b.put bytes).filled bytes.length).unread = b.unread ++ bytes := by
  have hbehind : b.behind.length = b.room := List.length_drop
  have hfits : bytes.take b.behind.length = bytes := List.take_of_length_le (hbehind ▸ h)
  rw [unread_put_filled, overwrite, hfits, List.take_left' rfl]

@[simp] theorem ceiling_filled (bytes : Bytes) (n : ℕ) :
    ((b.put bytes).filled n).ceiling = b.ceiling := rfl

/-- What is more than there is takes all of it. -/
theorem unread_consume (n : ℕ) : (b.consume n).unread = b.unread.drop n := by
  have hlen := b.length_unread
  unfold consume
  split_ifs with hzero
  · simp [hzero]
  · rcases le_total (b.start + n) b.stop with hle | hle
    · simp only [unread, List.drop_drop, Nat.min_eq_left hle]
    · rw [List.drop_of_length_le (by omega)]
      simp [unread, Nat.min_eq_right hle]

@[simp] theorem floor_consume (n : ℕ) : (b.consume n).floor = b.floor := by
  unfold consume
  split_ifs <;> rfl

@[simp] theorem ceiling_consume (n : ℕ) : (b.consume n).ceiling = b.ceiling := by
  unfold consume
  split_ifs <;> rfl

/-- Room that is asked for below the ceiling is room that is given, and no byte of the stream is
changed by it. -/
theorem reserve_of_le {n : ℕ} (h : n ≤ b.ceiling) :
    ∃ b', b.reserve n = some b' ∧ b'.unread = b.unread ∧ b'.ceiling = b.ceiling :=
  ⟨_, if_neg (by omega), by rw [unread_makeRoom]; rfl, by rw [ceiling_makeRoom]⟩

/-- A buffer with nothing in it stays so. -/
theorem reserve_of_empty {n : ℕ} (hempty : b.start = b.stop) (h : n ≤ b.ceiling) :
    ∃ b', b.reserve n = some b' ∧ b'.start = b'.stop ∧ b'.floor = b.floor := by
  have hroom : { b with wanted := n }.makeRoom = { b with wanted := n }.shrink := if_pos hempty
  exact ⟨_, if_neg (by omega), by rw [hroom]; rfl, by rw [hroom]; rfl⟩

@[simp] theorem unread_withLimits (floor ceiling : ℕ) : (withLimits floor ceiling).unread = [] := rfl

end ReadBuffer

/-! ### What a read comes to -/

namespace Source

variable (s : Source)

/-- A read takes bytes off the front of what is left, where there are any and there is room, or it
has an error and takes none. -/
theorem read_cases {room : ℕ} (hroom : 0 < room) :
    (∃ n cuts, s.read room = (.ok (s.rest.take n), ⟨s.rest.drop n, cuts⟩) ∧ 0 < n ∧ n ≤ room ∧
      cuts.length ≤ s.cuts.length ∧ cuts ⊆ s.cuts) ∨
    (∃ e cuts, s.read room = (.error e, ⟨s.rest, cuts⟩) ∧ cuts.length < s.cuts.length ∧
      cuts ⊆ s.cuts ∧ (if isTimeout e then Cut.timedOut else Cut.failed) ∈ s.cuts) := by
  rcases s with ⟨rest, _ | ⟨_ | _ | _, cuts⟩⟩
  · exact .inl ⟨room, [], rfl, hroom, le_rfl, le_rfl, fun _ h => h⟩
  · rename_i more
    exact .inl ⟨min (more + 1) room, cuts, rfl, by omega, by omega, by simp, by simp⟩
  · exact .inr ⟨_, cuts, rfl, by simp, by simp, by simp [isTimeout]⟩
  · exact .inr ⟨_, cuts, rfl, by simp, by simp, by simp [isTimeout]⟩

end Source

/-- Below its ceiling a buffer takes what a read gives behind what it holds, or the read has an error
and it holds what it held. -/
theorem ReadBuffer.fillFrom_cases {b : ReadBuffer} (source : Source)
    (h : b.unread.length < b.ceiling) :
    (∃ n b' cuts, b.fillFrom source =
        (.ok (source.rest.take n).length, b', ⟨source.rest.drop n, cuts⟩) ∧ 0 < n ∧
      b'.unread = b.unread ++ source.rest.take n ∧ b'.ceiling = b.ceiling ∧
      cuts.length ≤ source.cuts.length ∧ cuts ⊆ source.cuts) ∨
    (∃ e b' cuts, b.fillFrom source = (.error e, b', ⟨source.rest, cuts⟩) ∧
      b'.unread = b.unread ∧ b'.ceiling = b.ceiling ∧ cuts.length < source.cuts.length ∧
      cuts ⊆ source.cuts ∧ (if isTimeout e then Cut.timedOut else Cut.failed) ∈ source.cuts) := by
  have hroom := b.room_pos h
  obtain ⟨n, cuts, hread, hn, hle, hcuts, hsub⟩ | ⟨e, cuts, hread, hcuts, hsub, he⟩ :=
    source.read_cases hroom
  · refine .inl ⟨n, (b.makeRoom.put (source.rest.take n)).filled (source.rest.take n).length, cuts, ?_,
      hn, ?_, ?_, hcuts, hsub⟩
    · rw [fillFrom, if_neg hroom.ne', hread]
    · rw [unread_filled _ (by simp; omega), unread_makeRoom]
    · rw [ceiling_filled, ceiling_makeRoom]
  · refine .inr ⟨e, b.makeRoom, cuts, ?_, b.unread_makeRoom, b.ceiling_makeRoom, hcuts, hsub, he⟩
    rw [fillFrom, if_neg hroom.ne', hread]

/-- What a read gives a buffer with nothing in it, where it has room for it. -/
theorem ReadBuffer.fillFrom_of_empty {b : ReadBuffer} {source source' : Source} {bytes : Bytes}
    (hempty : b.start = b.stop) (hread : ∀ room, b.floor ≤ room → source.read room = (.ok bytes, source'))
    (h : bytes.length ≤ b.floor) :
    ∃ b', b.fillFrom source = (.ok bytes.length, b', source') ∧ b'.unread = bytes := by
  have hroom := b.floor_le_room hempty
  have hunread : b.unread = [] := b.unread_eq_nil_iff.2 hempty
  refine ⟨(b.makeRoom.put bytes).filled bytes.length, ?_, ?_⟩
  · rw [fillFrom, if_neg (b.floor_pos.trans_le hroom).ne', hread _ hroom]
  · rw [unread_filled _ (h.trans hroom), unread_makeRoom, hunread, List.nil_append]

end LcmBus
