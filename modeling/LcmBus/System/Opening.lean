import LcmBus.System.Relayed
import LcmBus.Wire.Greeting

/-!
# The opening of a connection

`open_tcpq` of `relay.rs` from its first write to its last, and `start_peer` of `serve.rs` as far as its
peer, over a stream that moves any part of what a call asks for.  Either of the two can find a stranger at
the other end.

* `Party`: what the two have, and where they differ; `caller` and `listener`: each of them;
* `step`: one turn of `write_by` and `read_by`, or of `write_all` and `read_exact`;
* `stepped_of_step` and `step_other`: what a step can be, and what it leaves to the other side;
* `Holds` and `Sound.step`: where a party is, against what it sent and took;
* `rank_step` and `exists_turn`: each call that moves a byte is one less to come, and one can always move;
* `greets`: what comes of every opening.
-/

namespace LcmBus.Opening

open Tcpq

/-! ### The two parties -/

/-- The two ends of a connection. -/
inductive Side
  | caller
  | listener
  deriving DecidableEq, Repr

def Side.other : Side → Side
  | .caller => .listener
  | .listener => .caller

/-- What is made of a greeting that is not one of the other side. -/
inductive Refusal
  /-- `ClientError::Handshake`. -/
  | handshake (e : WireError)
  /-- `InvalidData`, whose text is fixed. -/
  | invalidData (text : String)
  deriving DecidableEq, Repr

/-- What a party sends, and what it asks of the other. -/
structure Party where
  greeting : Bytes
  check : Bytes → Except Refusal UInt32
  /-- What it sends behind the greetings. -/
  frames : List Bytes
  /-- The end of its open, where a timeout of the socket is a poll. -/
  deadline : Option ℕ

/-- `open_tcpq`, with the texts of its opening subscriptions. -/
def caller (deadline : ℕ) (texts : List String) : Party where
  greeting := handshake
  check reply := (checkHandshake reply).mapError .handshake
  frames := texts.map subscribe
  deadline := some deadline

/-- `start_peer`, which drops what was wrong with a greeting.  The timeouts are those of its socket. -/
def listener : Party where
  greeting := serverHandshake
  check greeting := (checkClientHandshake greeting).mapError fun _ =>
    .invalidData "the greeting is not that of an LCM relay client"
  frames := []
  deadline := none

inductive Failure
  | io (e : IoError)
  | refused (why : Refusal)
  deriving DecidableEq, Repr

/-- Where a party is. -/
inductive Place
  | greeting (rest : Bytes)
  | reading
  | telling (rest : Bytes) (more : List Bytes)
  | through
  | failed (why : Failure)
  /-- Something else is there, which says and hears what it likes. -/
  | stranger
  deriving DecidableEq, Repr

/-- One direction of the connection. -/
structure Pipe where
  /-- What the other end has read. -/
  taken : Bytes
  unread : Bytes
  closed : Bool

def Pipe.sent (p : Pipe) : Bytes := p.taken ++ p.unread

structure State where
  place : Side → Place
  /-- What each side writes. -/
  pipe : Side → Pipe

/-- What a call of the socket answers. -/
inductive Answer
  | bytes (count : ℕ)
  | interrupted
  | timedOut
  | failed
  deriving DecidableEq, Repr

inductive Act
  /-- A turn of the loop that a party is in, which looks at the clock and calls the socket. -/
  | turn (side : Side) (now : ℕ) (answer : Answer)
  /-- What a stranger does. -/
  | speaks (side : Side) (bytes : Bytes)
  | hears (side : Side) (count : ℕ)
  | hangsUp (side : Side)
  deriving DecidableEq, Repr

def start (parties : Side → Party) (ours : Side → Bool) : State :=
  ⟨fun side => if ours side then .greeting (parties side).greeting else .stranger,
    fun _ => ⟨[], [], false⟩⟩

/-! ### The loops -/

namespace State

def goes (s : State) (side : Side) (place : Place) : State :=
  { s with place := Function.update s.place side place }

/-- The error ends the open, and the stream is dropped. -/
def fails (s : State) (side : Side) (why : Failure) : State :=
  { s.goes side (.failed why) with
    pipe := Function.update s.pipe side { s.pipe side with closed := true } }

def puts (s : State) (side : Side) (bytes : Bytes) : State :=
  { s with pipe := Function.update s.pipe side { s.pipe side with unread := (s.pipe side).unread ++ bytes } }

/-- The side takes so many bytes of what the other one sent. -/
def takes (s : State) (side : Side) (count : ℕ) : State :=
  let incoming := s.pipe side.other
  { s with pipe := Function.update s.pipe side.other { incoming with
      taken := incoming.taken ++ incoming.unread.take count
      unread := incoming.unread.drop count } }

end State

/-- The loop of `write_by` or `read_by` is at its deadline. -/
def Party.late (p : Party) (now : ℕ) : Bool := p.deadline.any fun deadline => deadline ≤ now

/-- A call that moved nothing. -/
def Party.idles (p : Party) (s : State) (side : Side) : Answer → Option State
  | .interrupted => some s
  | .timedOut => some (if p.deadline.isSome then s else s.fails side (.io .timedOut))
  | .failed => some (s.fails side (.io .other))
  | .bytes _ => none

/-- One turn of a write of `rest`, which goes on at `behind`. -/
def Party.writes (p : Party) (s : State) (side : Side) (now : ℕ) (rest : Bytes) (behind : Bytes → Place)
    (answer : Answer) : Option State :=
  if p.late now then some (s.fails side (.io .timedOut))
  else match answer with
    | .bytes 0 => some (s.fails side (.io .other))
    | .bytes count =>
      if count ≤ rest.length then
        some ((s.puts side (rest.take count)).goes side (behind (rest.drop count)))
      else none
    | answer => p.idles s side answer

/-- The place of a party with these frames to write. -/
def tell : List Bytes → Place
  | [] => .through
  | frame :: more => if frame = [] then tell more else .telling frame more

/-- One turn of the read of the other side's greeting. -/
def Party.reads (p : Party) (s : State) (side : Side) (now : ℕ) (answer : Answer) : Option State :=
  let incoming := s.pipe side.other
  if p.late now then some (s.fails side (.io .timedOut))
  else match answer with
    | .bytes 0 => if incoming.unread = [] ∧ incoming.closed then some (s.fails side (.io .other)) else none
    | .bytes count =>
      if count ≤ incoming.unread.length ∧ incoming.taken.length + count ≤ greetingLen then
        let reply := incoming.taken ++ incoming.unread.take count
        some (if reply.length < greetingLen then s.takes side count
          else match p.check reply with
            | .ok _ => (s.takes side count).goes side (tell p.frames)
            | .error e => (s.takes side count).fails side (.refused e))
      else none
    | answer => p.idles s side answer

/-- One step of either end. -/
def step (parties : Side → Party) (s : State) : Act → Option State
  | .turn side now answer =>
    match s.place side with
    | .greeting rest => (parties side).writes s side now rest
      (fun rest => if rest = [] then .reading else .greeting rest) answer
    | .reading => (parties side).reads s side now answer
    | .telling rest more => (parties side).writes s side now rest
      (fun rest => if rest = [] then tell more else .telling rest more) answer
    | _ => none
  | .speaks side bytes => if s.place side = .stranger then some (s.puts side bytes) else none
  | .hears side count => if s.place side = .stranger then some (s.takes side count) else none
  | .hangsUp side =>
    if s.place side = .stranger then
      some { s with pipe := Function.update s.pipe side { s.pipe side with closed := true } }
    else none

/-! ### Where a party is -/

/-- The greeting that the party took is one of the other side. -/
def Party.Accepts (p : Party) (taken : Bytes) : Prop :=
  taken.length = greetingLen ∧ ∃ version, p.check taken = .ok version

/-- Where a party is, against what it sent and took. -/
def Holds (p : Party) (sent taken : Bytes) : Place → Prop
  | .greeting rest => sent ++ rest = p.greeting ∧ taken = [] ∧ rest ≠ []
  | .reading => sent = p.greeting ∧ taken.length < greetingLen
  | .telling rest more =>
    sent ++ (rest ++ more.flatten) = p.greeting ++ p.frames.flatten ∧ p.Accepts taken ∧ rest ≠ []
  | .through => sent = p.greeting ++ p.frames.flatten ∧ p.Accepts taken
  | .failed (.refused why) => sent = p.greeting ∧ taken.length = greetingLen ∧ p.check taken = .error why
  | .failed (.io _) => sent <+: p.greeting ++ p.frames.flatten ∧ taken.length ≤ greetingLen
  | .stranger => True

/-- What holds of the two in every state. -/
def Sound (parties : Side → Party) (s : State) : Prop :=
  ∀ side, Holds (parties side) (s.pipe side).sent (s.pipe side.other).taken (s.place side)

def Act.side : Act → Side
  | .turn side .. | .speaks side _ | .hears side _ | .hangsUp side => side

@[simp] theorem Side.other_other (side : Side) : side.other.other = side := by cases side <;> rfl

@[simp] theorem Side.other_ne (side : Side) : side.other ≠ side := by cases side <;> decide

@[simp] theorem Side.ne_other (side : Side) : side ≠ side.other := side.other_ne.symm

theorem Side.eq_or_eq_other (a b : Side) : b = a ∨ b = a.other := by cases a <;> cases b <;> decide

/-! ### What a turn comes to -/

namespace State

variable (s : State) (side : Side)

@[simp] theorem goes_place (place : Place) : (s.goes side place).place side = place := by simp [goes]

@[simp] theorem goes_place_other (place : Place) :
    (s.goes side place).place side.other = s.place side.other := by simp [goes]

@[simp] theorem goes_pipe (place : Place) : (s.goes side place).pipe = s.pipe := rfl

@[simp] theorem fails_place (why : Failure) : (s.fails side why).place side = .failed why := by
  simp [fails]

@[simp] theorem fails_place_other (why : Failure) :
    (s.fails side why).place side.other = s.place side.other := by simp [fails]

@[simp] theorem fails_sent (why : Failure) (side' : Side) :
    ((s.fails side why).pipe side').sent = (s.pipe side').sent := by
  rcases side.eq_or_eq_other side' with rfl | rfl <;> simp [fails, Pipe.sent]

@[simp] theorem fails_taken (why : Failure) (side' : Side) :
    ((s.fails side why).pipe side').taken = (s.pipe side').taken := by
  rcases side.eq_or_eq_other side' with rfl | rfl <;> simp [fails]

@[simp] theorem puts_place (bytes : Bytes) : (s.puts side bytes).place = s.place := rfl

@[simp] theorem puts_sent (bytes : Bytes) :
    ((s.puts side bytes).pipe side).sent = (s.pipe side).sent ++ bytes := by
  simp [puts, Pipe.sent]

@[simp] theorem puts_sent_other (bytes : Bytes) :
    ((s.puts side bytes).pipe side.other).sent = (s.pipe side.other).sent := by simp [puts]

@[simp] theorem puts_taken (bytes : Bytes) (side' : Side) :
    ((s.puts side bytes).pipe side').taken = (s.pipe side').taken := by
  rcases side.eq_or_eq_other side' with rfl | rfl <;> simp [puts]

@[simp] theorem takes_place (count : ℕ) : (s.takes side count).place = s.place := rfl

@[simp] theorem takes_sent (count : ℕ) (side' : Side) :
    ((s.takes side count).pipe side').sent = (s.pipe side').sent := by
  rcases side.eq_or_eq_other side' with rfl | rfl <;> simp [takes, Pipe.sent]

@[simp] theorem takes_taken_other (count : ℕ) :
    ((s.takes side count).pipe side.other).taken =
      (s.pipe side.other).taken ++ (s.pipe side.other).unread.take count := by simp [takes]

@[simp] theorem takes_taken (count : ℕ) :
    ((s.takes side count).pipe side).taken = (s.pipe side).taken := by simp [takes]

end State

variable {parties : Side → Party} {p : Party} {s t : State} {side : Side} {now : ℕ} {answer : Answer}

/-- A call that moved nothing leaves all as it was, or ends the open. -/
theorem idles_cases (h : p.idles s side answer = some t) :
    (∀ count, answer ≠ .bytes count) ∧ (t = s ∨ ∃ e, t = s.fails side (.io e)) := by
  cases answer with
  | bytes count => cases h
  | interrupted => exact ⟨nofun, .inl (Option.some.inj h).symm⟩
  | failed => exact ⟨nofun, .inr ⟨.other, (Option.some.inj h).symm⟩⟩
  | timedOut =>
    refine ⟨nofun, ?_⟩
    rw [Party.idles] at h
    split_ifs at h
    · exact .inl (Option.some.inj h).symm
    · exact .inr ⟨.timedOut, (Option.some.inj h).symm⟩

/-- A turn of a write leaves all as it was, ends the open, or sends the next of the bytes. -/
theorem writes_cases {rest : Bytes} {behind : Bytes → Place}
    (h : p.writes s side now rest behind answer = some t) :
    (∀ count, answer ≠ .bytes count) ∧ t = s ∨ (∃ e, t = s.fails side (.io e)) ∨
      ∃ count, 0 < count ∧ count ≤ rest.length ∧
        t = (s.puts side (rest.take count)).goes side (behind (rest.drop count)) := by
  unfold Party.writes at h
  split at h
  · exact .inr (.inl ⟨.timedOut, (Option.some.inj h).symm⟩)
  split at h
  · exact .inr (.inl ⟨.other, (Option.some.inj h).symm⟩)
  · rename_i count hcount
    split_ifs at h with hle
    exact .inr (.inr ⟨count, Nat.pos_of_ne_zero hcount, hle, (Option.some.inj h).symm⟩)
  · obtain ⟨hidle, rfl | hfails⟩ := idles_cases h
    · exact .inl ⟨hidle, rfl⟩
    · exact .inr (.inl hfails)

/-- A turn of the read leaves all as it was, ends the open, or takes the next of the bytes, of which the
last one tells whose the greeting is. -/
theorem reads_cases (h : p.reads s side now answer = some t) :
    (∀ count, answer ≠ .bytes count) ∧ t = s ∨ (∃ e, t = s.fails side (.io e)) ∨
      ∃ count, 0 < count ∧
        let reply := (s.pipe side.other).taken ++ (s.pipe side.other).unread.take count
        reply.length = (s.pipe side.other).taken.length + count ∧
          (reply.length < greetingLen ∧ t = s.takes side count ∨
            reply.length = greetingLen ∧
              ((∃ version, p.check reply = .ok version) ∧
                  t = (s.takes side count).goes side (tell p.frames) ∨
                ∃ e, p.check reply = .error e ∧ t = (s.takes side count).fails side (.refused e))) := by
  unfold Party.reads at h
  split at h
  · exact .inr (.inl ⟨.timedOut, (Option.some.inj h).symm⟩)
  split at h
  · dsimp only at h
    split_ifs at h
    exact .inr (.inl ⟨.other, (Option.some.inj h).symm⟩)
  · rename_i count hcount
    dsimp only at h
    by_cases hle : count ≤ (s.pipe side.other).unread.length ∧
        (s.pipe side.other).taken.length + count ≤ greetingLen
    swap
    · rw [if_neg hle] at h
      cases h
    rw [if_pos hle, Option.some.injEq] at h
    have hlength : ((s.pipe side.other).taken ++ (s.pipe side.other).unread.take count).length =
        (s.pipe side.other).taken.length + count := by
      rw [List.length_append, List.length_take_of_le hle.1]
    refine .inr (.inr ⟨count, Nat.pos_of_ne_zero hcount, hlength, ?_⟩)
    by_cases hshort : ((s.pipe side.other).taken ++ (s.pipe side.other).unread.take count).length < greetingLen
    · rw [if_pos hshort] at h
      exact .inl ⟨hshort, h.symm⟩
    · rw [if_neg hshort] at h
      refine .inr ⟨by omega, ?_⟩
      cases hcheck : p.check ((s.pipe side.other).taken ++ (s.pipe side.other).unread.take count) with
      | ok version =>
        rw [hcheck] at h
        exact .inl ⟨⟨version, rfl⟩, h.symm⟩
      | error e =>
        rw [hcheck] at h
        exact .inr ⟨e, rfl, h.symm⟩
  · obtain ⟨hidle, rfl | hfails⟩ := idles_cases h
    · exact .inl ⟨hidle, rfl⟩
    · exact .inr (.inl hfails)

/-- The loops of the open are not at an end. -/
def Place.busy : Place → Bool
  | .greeting _ | .reading | .telling .. => true
  | _ => false

/-- What a step can be. -/
inductive Stepped (parties : Side → Party) (s : State) : Act → State → Prop
  | idles (side : Side) (now : ℕ) (answer : Answer) (hidle : ∀ count, answer ≠ .bytes count) :
    Stepped parties s (.turn side now answer) s
  | fails (side : Side) (now : ℕ) (answer : Answer) (e : IoError) (hbusy : (s.place side).busy = true) :
    Stepped parties s (.turn side now answer) (s.fails side (.io e))
  | opens (side : Side) (now : ℕ) (answer : Answer) (rest : Bytes) (count : ℕ)
    (hplace : s.place side = .greeting rest) (hpos : 0 < count) (hle : count ≤ rest.length) :
    Stepped parties s (.turn side now answer) ((s.puts side (rest.take count)).goes side
      (if rest.drop count = [] then .reading else .greeting (rest.drop count)))
  | tells (side : Side) (now : ℕ) (answer : Answer) (rest : Bytes) (more : List Bytes) (count : ℕ)
    (hplace : s.place side = .telling rest more) (hpos : 0 < count) (hle : count ≤ rest.length) :
    Stepped parties s (.turn side now answer) ((s.puts side (rest.take count)).goes side
      (if rest.drop count = [] then tell more else .telling (rest.drop count) more))
  | takes (side : Side) (now : ℕ) (answer : Answer) (count : ℕ) (hplace : s.place side = .reading)
    (hpos : 0 < count)
    (hlength : ((s.takes side count).pipe side.other).taken.length =
      (s.pipe side.other).taken.length + count)
    (hshort : ((s.takes side count).pipe side.other).taken.length < greetingLen) :
    Stepped parties s (.turn side now answer) (s.takes side count)
  | accepts (side : Side) (now : ℕ) (answer : Answer) (count : ℕ) (hplace : s.place side = .reading)
    (haccepts : (parties side).Accepts ((s.takes side count).pipe side.other).taken) :
    Stepped parties s (.turn side now answer) ((s.takes side count).goes side (tell (parties side).frames))
  | refuses (side : Side) (now : ℕ) (answer : Answer) (count : ℕ) (e : Refusal)
    (hplace : s.place side = .reading)
    (hlength : ((s.takes side count).pipe side.other).taken.length = greetingLen)
    (hcheck : (parties side).check ((s.takes side count).pipe side.other).taken = .error e) :
    Stepped parties s (.turn side now answer) ((s.takes side count).fails side (.refused e))
  | speaks (side : Side) (bytes : Bytes) (hplace : s.place side = .stranger) :
    Stepped parties s (.speaks side bytes) (s.puts side bytes)
  | hears (side : Side) (count : ℕ) (hplace : s.place side = .stranger) :
    Stepped parties s (.hears side count) (s.takes side count)
  | hangsUp (side : Side) (hplace : s.place side = .stranger) :
    Stepped parties s (.hangsUp side)
      { s with pipe := Function.update s.pipe side { s.pipe side with closed := true } }

theorem stepped_of_step {e : Act} (h : step parties s e = some t) : Stepped parties s e t := by
  cases e with
  | turn side now answer =>
    rw [step] at h
    split at h
    · rename_i rest hplace
      obtain ⟨hidle, rfl⟩ | ⟨e, rfl⟩ | ⟨count, hpos, hle, rfl⟩ := writes_cases h
      · exact .idles side now answer hidle
      · exact .fails side now answer e (by rw [hplace]; rfl)
      · exact .opens side now answer rest count hplace hpos hle
    · rename_i hplace
      obtain ⟨hidle, rfl⟩ | ⟨e, rfl⟩ | ⟨count, hpos, hlength, hreads⟩ := reads_cases h
      · exact .idles side now answer hidle
      · exact .fails side now answer e (by rw [hplace]; rfl)
      rw [← State.takes_taken_other] at hlength hreads
      obtain ⟨hshort, rfl⟩ | ⟨hfull, ⟨hcheck, rfl⟩ | ⟨e, hcheck, rfl⟩⟩ := hreads
      · exact .takes side now answer count hplace hpos hlength hshort
      · exact .accepts side now answer count hplace ⟨hfull, hcheck⟩
      · exact .refuses side now answer count e hplace hfull hcheck
    · rename_i rest more hplace
      obtain ⟨hidle, rfl⟩ | ⟨e, rfl⟩ | ⟨count, hpos, hle, rfl⟩ := writes_cases h
      · exact .idles side now answer hidle
      · exact .fails side now answer e (by rw [hplace]; rfl)
      · exact .tells side now answer rest more count hplace hpos hle
    · cases h
  | speaks side bytes =>
    obtain ⟨hplace, rfl⟩ : s.place side = .stranger ∧ s.puts side bytes = t := by simpa [step] using h
    exact .speaks side bytes hplace
  | hears side count =>
    obtain ⟨hplace, rfl⟩ : s.place side = .stranger ∧ s.takes side count = t := by simpa [step] using h
    exact .hears side count hplace
  | hangsUp side =>
    rw [step] at h
    split_ifs at h with hplace
    cases h
    exact .hangsUp side hplace

/-- A step of a side is not one of the other: that is where it was, and sent and took what it had. -/
theorem step_other {e : Act} (h : step parties s e = some t) :
    t.place e.side.other = s.place e.side.other ∧
      (t.pipe e.side.other).sent = (s.pipe e.side.other).sent ∧
      (t.pipe e.side).taken = (s.pipe e.side).taken := by
  cases stepped_of_step h <;> simp [Act.side]

/-! ### What every step keeps -/

theorem holds_tell {sent taken : Bytes} {frames : List Bytes}
    (hsent : sent ++ frames.flatten = p.greeting ++ p.frames.flatten) (haccepts : p.Accepts taken) :
    Holds p sent taken (tell frames) := by
  induction frames with
  | nil => exact ⟨by simpa using hsent, haccepts⟩
  | cons frame more ih =>
    rw [tell]
    split_ifs with hempty
    · exact ih (by simpa [hempty] using hsent)
    · exact ⟨by simpa using hsent, haccepts, hempty⟩

/-- Whatever ends a loop ends it with a part of what the party had to send sent. -/
theorem Holds.of_busy {sent taken : Bytes} {place : Place} (h : Holds p sent taken place)
    (hbusy : place.busy = true) :
    sent <+: p.greeting ++ p.frames.flatten ∧ taken.length ≤ greetingLen := by
  cases place with
  | greeting rest =>
    obtain ⟨hsent, rfl, -⟩ := h
    exact ⟨⟨rest ++ p.frames.flatten, by rw [← List.append_assoc, hsent]⟩, Nat.zero_le _⟩
  | reading =>
    obtain ⟨rfl, htaken⟩ := h
    exact ⟨List.prefix_append _ _, htaken.le⟩
  | telling rest more =>
    obtain ⟨hsent, ⟨htaken, -⟩, -⟩ := h
    exact ⟨⟨rest ++ more.flatten, hsent⟩, htaken.le⟩
  | through | failed _ | stranger => cases hbusy

theorem Sound.step {e : Act} (hs : Sound parties s) (h : step parties s e = some t) : Sound parties t := by
  intro side
  obtain rfl | rfl := e.side.eq_or_eq_other side
  · have hheld := hs e.side
    cases stepped_of_step h with
    | idles side now answer _ => exact hheld
    | fails side now answer e hbusy => simpa [Act.side, Holds] using hheld.of_busy hbusy
    | opens side now answer rest count hplace hpos hle =>
      rw [Act.side, hplace] at hheld
      obtain ⟨hsent, htaken, -⟩ := hheld
      simp only [Act.side, State.goes_place, State.goes_pipe, State.puts_sent, State.puts_taken]
      split_ifs with hempty
      · have hall : rest.take count = rest := by simpa [hempty] using List.take_append_drop count rest
        exact ⟨by rw [hall, hsent], by rw [htaken]; decide⟩
      · exact ⟨by rw [List.append_assoc, List.take_append_drop, hsent], htaken, hempty⟩
    | tells side now answer rest more count hplace hpos hle =>
      rw [Act.side, hplace] at hheld
      obtain ⟨hsent, haccepts, -⟩ := hheld
      rw [← List.take_append_drop count rest, List.append_assoc, ← List.append_assoc] at hsent
      simp only [Act.side, State.goes_place, State.goes_pipe, State.puts_sent, State.puts_taken]
      split_ifs with hempty
      · rw [hempty, List.nil_append] at hsent
        exact holds_tell hsent haccepts
      · exact ⟨hsent, haccepts, hempty⟩
    | takes side now answer count hplace hpos hlength hshort =>
      rw [Act.side, hplace] at hheld
      simp only [Act.side, State.takes_place, State.takes_sent]
      rw [hplace]
      exact ⟨hheld.1, hshort⟩
    | accepts side now answer count hplace haccepts =>
      rw [Act.side, hplace] at hheld
      simp only [Act.side, State.goes_place, State.goes_pipe, State.takes_sent]
      exact holds_tell (by rw [hheld.1]) haccepts
    | refuses side now answer count e hplace hlength hcheck =>
      rw [Act.side, hplace] at hheld
      simp only [Act.side, State.fails_place, State.fails_sent, State.fails_taken, State.takes_sent]
      exact ⟨hheld.1, hlength, hcheck⟩
    | speaks side bytes hplace => simp [Act.side, hplace, Holds]
    | hears side count hplace => simp [Act.side, hplace, Holds]
    | hangsUp side hplace => simp [Act.side, hplace, Holds]
  · obtain ⟨hplace, hsent, htaken⟩ := step_other h
    have hheld := hs e.side.other
    rw [Side.other_other] at hheld ⊢
    rwa [hplace, hsent, htaken]

theorem sound_start (parties : Side → Party) (ours : Side → Bool)
    (hgreeting : ∀ side, (parties side).greeting ≠ []) : Sound parties (start parties ours) := by
  intro side
  cases hours : ours side with
  | false => simp [start, hours, Holds]
  | true => simp [start, hours, Holds, Pipe.sent, hgreeting side]

/-! ### How far a party is from its end -/

/-- The bytes that are still to be moved by the calls of a party. -/
def rank (p : Party) (taken : Bytes) : Place → ℕ
  | .greeting rest => rest.length + (greetingLen + p.frames.flatten.length)
  | .reading => (greetingLen - taken.length) + p.frames.flatten.length
  | .telling rest more => rest.length + more.flatten.length
  | _ => 0

def State.rankOf (s : State) (parties : Side → Party) (side : Side) : ℕ :=
  rank (parties side) (s.pipe side.other).taken (s.place side)

def State.rank (s : State) (parties : Side → Party) : ℕ :=
  s.rankOf parties .caller + s.rankOf parties .listener

theorem State.rank_eq (s : State) (parties : Side → Party) (side : Side) :
    s.rank parties = s.rankOf parties side + s.rankOf parties side.other := by
  cases side with
  | caller => rfl
  | listener => exact Nat.add_comm _ _

/-- A call that moves bytes, or finds the end of them. -/
def Act.moves : Act → Bool
  | .turn _ _ (.bytes _) => true
  | _ => false

@[simp] theorem rank_tell (p : Party) (taken : Bytes) (frames : List Bytes) :
    rank p taken (tell frames) = frames.flatten.length := by
  induction frames with
  | nil => rfl
  | cons frame more ih =>
    rw [tell]
    split_ifs with hempty
    · rw [ih, hempty, List.flatten_cons, List.nil_append]
    · rw [rank, List.flatten_cons, List.length_append]

/-- A party in a loop has something to move. -/
theorem Holds.rank_pos {sent taken : Bytes} {place : Place} (h : Holds p sent taken place)
    (hbusy : place.busy = true) : 0 < rank p taken place := by
  cases place with
  | greeting rest =>
    have := List.length_pos_of_ne_nil h.2.2
    exact Nat.add_pos_left this _
  | reading => exact Nat.add_pos_left (Nat.sub_pos_of_lt h.2) _
  | telling rest more =>
    have := List.length_pos_of_ne_nil h.2.2
    exact Nat.add_pos_left this _
  | through | failed _ | stranger => cases hbusy

/-- **Each call that moves something brings its party nearer to the end**, and no step takes it away. -/
theorem rank_step {e : Act} (hs : Sound parties s) (h : step parties s e = some t) :
    t.rank parties ≤ s.rank parties ∧ (e.moves = true → t.rank parties < s.rank parties) := by
  have hother : t.rankOf parties e.side.other = s.rankOf parties e.side.other := by
    obtain ⟨hplace, -, htaken⟩ := step_other h
    rw [State.rankOf, State.rankOf, Side.other_other, hplace, htaken]
  have hown : t.rankOf parties e.side ≤ s.rankOf parties e.side ∧
      (e.moves = true → t.rankOf parties e.side < s.rankOf parties e.side) := by
    have hheld := hs e.side
    cases stepped_of_step h with
    | idles side now answer hidle =>
      refine ⟨le_rfl, fun hmoves => ?_⟩
      cases answer with
      | bytes count => exact absurd rfl (hidle count)
      | interrupted | timedOut | failed => cases hmoves
    | fails side now answer e hbusy =>
      have hpos : 0 < s.rankOf parties side := hheld.rank_pos hbusy
      have hzero : (s.fails side (.io e)).rankOf parties side = 0 := by simp [State.rankOf, rank]
      exact ⟨by simp [Act.side, hzero], fun _ => by simpa [Act.side, hzero] using hpos⟩
    | opens side now answer rest count hplace hpos hle =>
      rw [Act.side, hplace] at hheld
      suffices hlt : _ from ⟨le_of_lt hlt, fun _ => hlt⟩
      simp only [Act.side, State.rankOf, hplace, State.goes_place, State.goes_pipe, State.puts_taken]
      split_ifs with hempty
      · rw [rank, rank, hheld.2.1, List.length_nil]
        omega
      · rw [rank, rank, List.length_drop]
        omega
    | tells side now answer rest more count hplace hpos hle =>
      suffices hlt : _ from ⟨le_of_lt hlt, fun _ => hlt⟩
      simp only [Act.side, State.rankOf, hplace, State.goes_place]
      split_ifs with hempty
      · rw [rank_tell, rank]
        omega
      · rw [rank, rank, List.length_drop]
        omega
    | takes side now answer count hplace hpos hlength hshort =>
      suffices hlt : _ from ⟨le_of_lt hlt, fun _ => hlt⟩
      simp only [Act.side, State.rankOf, hplace, State.takes_place]
      rw [rank, rank]
      omega
    | accepts side now answer count hplace haccepts =>
      rw [Act.side, hplace] at hheld
      suffices hlt : _ from ⟨le_of_lt hlt, fun _ => hlt⟩
      simp only [Act.side, State.rankOf, hplace, State.goes_place, rank_tell]
      rw [rank]
      have := hheld.2
      omega
    | refuses side now answer count e hplace hlength hcheck =>
      have hpos : 0 < s.rankOf parties side := hheld.rank_pos (by rw [Act.side, hplace]; trivial)
      have hzero : ((s.takes side count).fails side (.refused e)).rankOf parties side = 0 := by
        simp [State.rankOf, rank]
      exact ⟨by simp [Act.side, hzero], fun _ => by simpa [Act.side, hzero] using hpos⟩
    | speaks side bytes hplace => exact ⟨by simp [Act.side, State.rankOf, hplace, rank], nofun⟩
    | hears side count hplace => exact ⟨by simp [Act.side, State.rankOf, hplace, rank], nofun⟩
    | hangsUp side hplace => exact ⟨by simp [Act.side, State.rankOf, hplace, rank], nofun⟩
  rw [s.rank_eq parties e.side, t.rank_eq parties e.side, hother]
  exact ⟨Nat.add_le_add_right hown.1 _, fun hmoves => Nat.add_lt_add_right (hown.2 hmoves) _⟩

/-- A turn of the caller that looks at the clock too late. -/
def Act.late (deadline : ℕ) : Act → Bool
  | .turn .caller now _ => deadline ≤ now
  | _ => false

/-- A loop that ended is not taken up again. -/
theorem busy_of_step {e : Act} (h : step parties s e = some t) (side : Side)
    (hbusy : (t.place side).busy = true) : (s.place side).busy = true := by
  obtain rfl | rfl := e.side.eq_or_eq_other side
  · cases stepped_of_step h with
    | idles | takes | speaks | hears | hangsUp => exact hbusy
    | fails side now answer e hwas => exact hwas
    | opens side now answer rest count hplace | tells side now answer rest more count hplace
    | accepts side now answer count hplace | refuses side now answer count e hplace =>
      rw [Act.side, hplace]
      rfl
  · rwa [(step_other h).1] at hbusy

theorem writes_of_late {rest : Bytes} {behind : Bytes → Place} (hlate : p.late now = true) :
    p.writes s side now rest behind answer = some (s.fails side (.io .timedOut)) := by
  rw [Party.writes.eq_def, if_pos hlate]

theorem reads_of_late (hlate : p.late now = true) :
    p.reads s side now answer = some (s.fails side (.io .timedOut)) := by
  rw [Party.reads.eq_def, if_pos hlate]

/-- The caller looks at the clock at every turn, and goes no further at its deadline. -/
theorem late_step {deadline : ℕ} {e : Act} (hdeadline : (parties .caller).deadline = some deadline)
    (hlate : e.late deadline = true) (h : step parties s e = some t) :
    (s.place .caller).busy = true ∧ (t.place .caller).busy = false := by
  cases e with
  | turn side now answer =>
    cases side with
    | listener => cases hlate
    | caller =>
      have hover : (parties .caller).late now = true := by
        rw [Party.late, hdeadline]
        exact hlate
      have hends : (s.place .caller).busy = true ∧ t = s.fails .caller (.io .timedOut) := by
        rw [step] at h
        split at h
        · rename_i rest hplace
          exact ⟨by rw [hplace]; rfl, (Option.some.inj ((writes_of_late hover).symm.trans h)).symm⟩
        · rename_i hplace
          exact ⟨by rw [hplace]; rfl, (Option.some.inj ((reads_of_late hover).symm.trans h)).symm⟩
        · rename_i rest more hplace
          exact ⟨by rw [hplace]; rfl, (Option.some.inj ((writes_of_late hover).symm.trans h)).symm⟩
        · cases h
      obtain ⟨hbusy, rfl⟩ := hends
      exact ⟨hbusy, by rw [State.fails_place]; rfl⟩
  | speaks | hears | hangsUp => cases hlate

theorem late_le_one {deadline : ℕ} {acts : List Act} {s t : State}
    (hdeadline : (parties .caller).deadline = some deadline)
    (hrun : Machine.run (step parties) s acts = some t) : acts.countP (Act.late deadline) ≤ 1 := by
  have hcount := Machine.run_count_add_le (P := fun _ => True) (q := Act.late deadline)
    (f := fun s => if (s.place .caller).busy then 1 else 0)
    (fun s e t _ hstep => by
      refine ⟨trivial, ?_, fun hlate => ?_⟩
      · have hkept := busy_of_step hstep .caller
        split_ifs with ht hs
        · exact le_rfl
        · exact absurd (hkept ht) hs
        all_goals exact Nat.zero_le _
      · obtain ⟨hs, ht⟩ := late_step hdeadline hlate hstep
        rw [hs, ht]
        decide) trivial hrun
  have hle : (if (s.place .caller).busy then 1 else 0) ≤ 1 := by split <;> omega
  omega

/-! ### Two parties, and no stranger -/

theorem tell_ne_stranger (frames : List Bytes) : tell frames ≠ .stranger := by
  induction frames with
  | nil => nofun
  | cons frame more ih =>
    rw [tell]
    split_ifs
    · exact ih
    · nofun

theorem manned_step {e : Act} (h : step parties s e = some t) (hs : ∀ side, s.place side ≠ .stranger)
    (side : Side) : t.place side ≠ .stranger := by
  obtain rfl | rfl := e.side.eq_or_eq_other side
  · have hhere := hs e.side
    cases stepped_of_step h with
    | idles | takes | speaks | hears | hangsUp => exact hhere
    | fails side now answer e hbusy => simp [Act.side]
    | opens side now answer rest count =>
      rw [Act.side, State.goes_place]
      split_ifs <;> nofun
    | tells side now answer rest more count =>
      rw [Act.side, State.goes_place]
      split_ifs
      · exact tell_ne_stranger more
      · nofun
    | accepts side now answer count =>
      rw [Act.side, State.goes_place]
      exact tell_ne_stranger _
    | refuses side now answer count e => simp [Act.side]
  · rw [(step_other h).1]
    exact hs _

/-- What a party has sent is the first of what it has to send. -/
theorem Holds.sends {sent taken : Bytes} {place : Place} (h : Holds p sent taken place)
    (hplace : place ≠ .stranger) : sent <+: p.greeting ++ p.frames.flatten := by
  cases place with
  | greeting rest => exact (h.of_busy rfl).1
  | reading => exact (h.of_busy rfl).1
  | telling rest more => exact (h.of_busy rfl).1
  | through => exact h.1 ▸ List.prefix_rfl
  | failed why =>
    cases why with
    | io e => exact h.1
    | refused e => exact h.1 ▸ List.prefix_append _ _
  | stranger => exact absurd rfl hplace

/-- So the greeting that was taken of it is its own. -/
theorem Sound.taken_eq (hs : Sound parties s) (hplace : s.place side.other ≠ .stranger)
    (hgreeting : (parties side.other).greeting.length = greetingLen)
    (htaken : (s.pipe side.other).taken.length = greetingLen) :
    (s.pipe side.other).taken = (parties side.other).greeting := by
  have hsent : (s.pipe side.other).taken <+:
      (parties side.other).greeting ++ (parties side.other).frames.flatten :=
    (List.prefix_append _ _).trans ((hs side.other).sends hplace)
  have hfirst : (s.pipe side.other).taken <+: (parties side.other).greeting :=
    List.prefix_of_prefix_length_le hsent (List.prefix_append _ _) (by rw [htaken, hgreeting])
  exact hfirst.eq_of_length (by rw [htaken, hgreeting])

/-- Before the deadline one byte more can be written by a party that writes. -/
theorem exists_write {rest : Bytes} {behind : Bytes → Place} (hlate : p.late now = false)
    (hrest : rest ≠ []) :
    ∃ t, p.writes s side now rest behind (.bytes 1) = some t := by
  have hpos : 1 ≤ rest.length := List.length_pos_of_ne_nil hrest
  exact ⟨_, by rw [Party.writes.eq_def, if_neg (by simp [hlate])]; exact if_pos hpos⟩

/-- And be read, where there is one. -/
theorem exists_read (hlate : p.late now = false) (hunread : (s.pipe side.other).unread ≠ [])
    (htaken : (s.pipe side.other).taken.length < greetingLen) :
    ∃ t, p.reads s side now (.bytes 1) = some t := by
  have hpos : 1 ≤ (s.pipe side.other).unread.length := List.length_pos_of_ne_nil hunread
  exact ⟨_, by rw [Party.reads.eq_def, if_neg (by simp [hlate])]; exact if_pos ⟨hpos, htaken⟩⟩

/-- **Two parties never wait for each other**: where one of them is not through, a byte can be moved. -/
theorem exists_turn (hs : Sound parties s) (hmanned : ∀ side, s.place side ≠ .stranger)
    (hgreeting : ∀ side, (parties side).greeting.length = greetingLen)
    (hlate : ∀ side, (parties side).late now = false) (hwell : ∀ side why, s.place side ≠ .failed why)
    (hside : s.place side ≠ .through) :
    ∃ side t, step parties s (.turn side now (.bytes 1)) = some t := by
  have writes : ∀ side : Side,
      (∃ rest, s.place side = .greeting rest) ∨ (∃ rest more, s.place side = .telling rest more) →
        ∃ t, step parties s (.turn side now (.bytes 1)) = some t := by
    intro side hplace
    have hheld := hs side
    obtain ⟨rest, hplace⟩ | ⟨rest, more, hplace⟩ := hplace
    · rw [hplace] at hheld
      rw [step, hplace]
      exact exists_write (hlate side) hheld.2.2
    · rw [hplace] at hheld
      rw [step, hplace]
      exact exists_write (hlate side) hheld.2.2
  have hheld := hs side
  cases hplace : s.place side with
  | greeting rest => exact ⟨side, writes side (.inl ⟨rest, hplace⟩)⟩
  | telling rest more => exact ⟨side, writes side (.inr ⟨rest, more, hplace⟩)⟩
  | through => exact absurd hplace hside
  | failed why => exact absurd hplace (hwell side why)
  | stranger => exact absurd hplace (hmanned side)
  | reading =>
    rw [hplace] at hheld
    -- The other one writes its own greeting, or has, and then a byte of it is left here.
    by_cases hbehind : (parties side.other).greeting <+: (s.pipe side.other).sent
    · have hunread : (s.pipe side.other).unread ≠ [] := by
        intro hnone
        have hle := hbehind.length_le
        rw [Pipe.sent, hnone, List.append_nil, hgreeting] at hle
        exact absurd hheld.2 (Nat.not_lt.2 hle)
      obtain ⟨t, ht⟩ := exists_read (hlate side) hunread hheld.2
      exact ⟨side, t, by rw [step, hplace]; exact ht⟩
    · have hother := hs side.other
      cases hthere : s.place side.other with
      | greeting rest => exact ⟨side.other, writes side.other (.inl ⟨rest, hthere⟩)⟩
      | telling rest more => exact ⟨side.other, writes side.other (.inr ⟨rest, more, hthere⟩)⟩
      | reading =>
        rw [hthere] at hother
        exact absurd (hother.1 ▸ List.prefix_rfl) hbehind
      | through =>
        rw [hthere] at hother
        exact absurd (hother.1 ▸ List.prefix_append _ _) hbehind
      | failed why => exact absurd hthere (hwell side.other why)
      | stranger => exact absurd hthere (hmanned side.other)

/-! ### What comes of an opening -/

/-- The two of this crate. -/
def crate (deadline : ℕ) (texts : List String) : Side → Party
  | .caller => caller deadline texts
  | .listener => listener

/-- What the greeting of each begins with. -/
def magicOf : Side → UInt32
  | .caller => magicClient
  | .listener => magicServer

variable {deadline : ℕ} {texts : List String}

theorem crate_greeting (side : Side) : (crate deadline texts side).greeting = greeting (magicOf side) := by
  cases side <;> rfl

/-- What each makes of a greeting that it refuses: the relay does not say what it found. -/
def refusal : Side → WireError → Refusal
  | .caller, e => .handshake e
  | .listener, _ => .invalidData "the greeting is not that of an LCM relay client"

theorem crate_check (side : Side) (reply : Bytes) : (crate deadline texts side).check reply =
    (checkGreeting (magicOf side.other) reply).mapError (refusal side) := by
  cases side <;> rfl

/-- What each accepts. -/
theorem of_crate_check_ok {reply : Bytes} {version : UInt32} (hlength : reply.length = greetingLen)
    (h : (crate deadline texts side).check reply = .ok version) :
    reply = u32ToBe (magicOf side.other) ++ u32ToBe version := by
  rw [crate_check] at h
  cases hcheck : checkGreeting (magicOf side.other) reply with
  | ok found =>
    rw [hcheck] at h
    cases h
    exact (checkGreeting_ok_iff hlength).1 hcheck
  | error e =>
    rw [hcheck] at h
    cases h

/-- And refuses. -/
theorem of_crate_check_error {reply : Bytes} {why : Refusal} (hlength : reply.length = greetingLen)
    (h : (crate deadline texts side).check reply = .error why) :
    ∃ found version, reply = u32ToBe found ++ u32ToBe version ∧ found ≠ magicOf side.other ∧
      why = refusal side (.badMagic found) := by
  rw [crate_check] at h
  cases hcheck : checkGreeting (magicOf side.other) reply with
  | ok found =>
    rw [hcheck] at h
    cases h
  | error e =>
    obtain ⟨found, version, hreply, hmagic, rfl⟩ := checkGreeting_error hlength hcheck
    rw [hcheck] at h
    cases h
    exact ⟨found, version, hreply, hmagic, rfl⟩

theorem length_crate_greeting (side : Side) :
    (crate deadline texts side).greeting.length = greetingLen := by
  rw [crate_greeting, length_greeting]

theorem sound_of_run {manned : Side → Bool} {acts : List Act}
    (hrun : Machine.run (step (crate deadline texts)) (start (crate deadline texts) manned) acts = some s) :
    Sound (crate deadline texts) s := by
  have hgreeting : ∀ side, (crate deadline texts side).greeting ≠ [] := by
    intro side hnil
    have hlength : (crate deadline texts side).greeting.length = greetingLen := length_crate_greeting side
    rw [hnil] at hlength
    exact absurd hlength (by decide)
  exact Machine.run_invariant (fun _ _ _ => Sound.step) (sound_start _ manned hgreeting) hrun

theorem manned_of_run {manned : Side → Bool} {acts : List Act} (hmanned : ∀ side, manned side = true)
    (hrun : Machine.run (step (crate deadline texts)) (start (crate deadline texts) manned) acts = some s)
    (side : Side) : s.place side ≠ .stranger :=
  Machine.run_invariant (P := fun s => ∀ side, s.place side ≠ .stranger)
    (fun _ _ _ hs hstep => manned_step hstep hs) (fun side => by simp [start, hmanned side]) hrun side

theorem rank_start_le (manned : Side → Bool) :
    (start (crate deadline texts) manned).rank (crate deadline texts) ≤
      4 * greetingLen + (texts.flatMap subscribe).length := by
  have hside : ∀ side, (start (crate deadline texts) manned).rankOf (crate deadline texts) side ≤
      2 * greetingLen + (crate deadline texts side).frames.flatten.length := by
    intro side
    cases hours : manned side with
    | false => simp [State.rankOf, start, hours, rank]
    | true =>
      simp only [State.rankOf, start, hours, if_true, rank, length_crate_greeting]
      omega
  have hcaller : (crate deadline texts .caller).frames.flatten.length =
      (texts.flatMap subscribe).length := rfl
  have hlistener : (crate deadline texts .listener).frames.flatten.length = 0 := rfl
  have := hside .caller
  have := hside .listener
  rw [State.rank]
  omega

/-- Neither of the two takes a greeting that it refuses. -/
theorem not_refused (hs : Sound (crate deadline texts) s) (hmanned : ∀ side, s.place side ≠ .stranger)
    {why : Refusal} (hrefused : s.place side = .failed (.refused why)) : False := by
  have hheld := hs side
  rw [hrefused] at hheld
  obtain ⟨-, hlength, hcheck⟩ := hheld
  have htaken := hs.taken_eq (hmanned side.other) (length_crate_greeting _) hlength
  rw [htaken, crate_check, crate_greeting, checkGreeting_greeting] at hcheck
  cases hcheck

/-- Where both are through, each has taken the greeting of the other and no more. -/
theorem unread_of_through (hs : Sound (crate deadline texts) s) (hmanned : ∀ side, s.place side ≠ .stranger)
    (hthrough : ∀ side, s.place side = .through) (side : Side) :
    (s.pipe side).unread = (crate deadline texts side).frames.flatten := by
  have hsent : (s.pipe side).sent =
      (crate deadline texts side).greeting ++ (crate deadline texts side).frames.flatten := by
    have hheld := hs side
    rw [hthrough side] at hheld
    exact hheld.1
  have htaken : (s.pipe side).taken = (crate deadline texts side).greeting := by
    have hheld := hs side.other
    rw [hthrough side.other] at hheld
    have heq := hs.taken_eq (hmanned side.other.other) (length_crate_greeting _) hheld.2.1
    rwa [Side.other_other] at heq
  rw [Pipe.sent, htaken] at hsent
  exact List.append_cancel_left hsent

variable {Regex : Type} {opening : Subscriptions Regex}

/-- **What comes of every opening**, whoever is at the other end and however the stream is cut.  A side
that is through took eight bytes that begin as those of the other side do, and has sent all that it had to
send; one that refused took eight that begin otherwise, and sent its greeting alone: the caller names what
it found, and the relay gives one text for all of them.  The calls that move bytes come to an end, and the
caller looks at its clock too late no more than once.  Two of this crate never refuse each other, and never
wait for each other; and where both are through, what is left on the stream is what the relayed system
begins with. -/
theorem greets (receives : Bool) {manned : Side → Bool} {acts : List Act}
    (hrun : Machine.run (step (crate deadline opening.forARelay))
      (start (crate deadline opening.forARelay) manned) acts = some s) :
    (∀ side, s.place side = .through →
      (∃ version, (s.pipe side.other).taken = u32ToBe (magicOf side.other) ++ u32ToBe version) ∧
      (s.pipe side).sent =
        greeting (magicOf side) ++ (crate deadline opening.forARelay side).frames.flatten) ∧
    (∀ side why, s.place side = .failed (.refused why) →
      (s.pipe side).sent = greeting (magicOf side) ∧
      ∃ found version, (s.pipe side.other).taken = u32ToBe found ++ u32ToBe version ∧
        found ≠ magicOf side.other ∧ why = refusal side (.badMagic found)) ∧
    acts.countP Act.moves ≤ 4 * greetingLen + (opening.forARelay.flatMap subscribe).length ∧
    acts.countP (Act.late deadline) ≤ 1 ∧
    ((∀ side, manned side = true) →
      (∀ side why, s.place side ≠ .failed (.refused why)) ∧
      (∀ now < deadline, (∀ side why, s.place side ≠ .failed why) →
        (∃ side, s.place side ≠ .through) →
        ∃ side t, step (crate deadline opening.forARelay) s (.turn side now (.bytes 1)) = some t) ∧
      ((∀ side, s.place side = .through) →
        (s.pipe .caller).unread = (Relayed.Client.new receives opening).sent ∧
        (s.pipe .listener).unread = [])) := by
  have hsound := sound_of_run hrun
  refine ⟨fun side hthrough => ?_, fun side why hrefused => ?_, ?_, late_le_one rfl hrun, fun hmanned =>
    ⟨fun side why hrefused => ?_, fun now hnow hwell hside => ?_, fun hthrough => ?_⟩⟩
  · have hheld := hsound side
    rw [hthrough] at hheld
    obtain ⟨hsent, hlength, version, hcheck⟩ := hheld
    exact ⟨⟨version, of_crate_check_ok hlength hcheck⟩, by rw [hsent, crate_greeting]⟩
  · have hheld := hsound side
    rw [hrefused] at hheld
    obtain ⟨hsent, hlength, hcheck⟩ := hheld
    exact ⟨by rw [hsent, crate_greeting], of_crate_check_error hlength hcheck⟩
  · have hcount := Machine.run_count_add_le (P := Sound (crate deadline opening.forARelay))
      (f := fun s => s.rank (crate deadline opening.forARelay)) (q := Act.moves)
      (fun s e t hs hstep => ⟨hs.step hstep, rank_step hs hstep⟩)
      (sound_of_run (Machine.run_nil _ _)) hrun
    exact (Nat.le_add_right _ _).trans (hcount.trans (rank_start_le manned))
  · exact not_refused hsound (manned_of_run hmanned hrun) hrefused
  · obtain ⟨side, hside⟩ := hside
    refine exists_turn hsound (manned_of_run hmanned hrun) length_crate_greeting (fun side => ?_) hwell hside
    cases side with
    | caller => simpa [crate, caller, Party.late] using hnow
    | listener => rfl
  · have unread := unread_of_through hsound (manned_of_run hmanned hrun) hthrough
    have hsent : (Relayed.Client.new receives opening).sent = opening.forARelay.flatMap subscribe ++ [] := rfl
    refine ⟨?_, unread .listener⟩
    rw [hsent, List.append_nil]
    exact unread .caller

/-- A caller with one rule, over a stream that moves a part of what it is asked for. -/
def inPieces : List Act :=
  [.turn .caller 0 (.bytes 3), .turn .caller 1 .timedOut, .turn .caller 2 (.bytes 5),
    .turn .caller 3 .interrupted, .turn .listener 0 (.bytes 8), .turn .caller 4 (.bytes 7),
    .turn .listener 0 (.bytes 8), .turn .caller 5 (.bytes 1), .turn .caller 6 (.bytes 9)]

/-- Both are through, and the relay has the rule to read. -/
theorem greets_of_inPieces :
    let opening : Subscriptions Unit := ⟨[.pattern "a" ()]⟩
    ∃ s, Machine.run (step (crate 10 opening.forARelay)) (start (crate 10 opening.forARelay) fun _ => true)
        inPieces = some s ∧
      (s.pipe .caller).taken = handshake ∧ (s.pipe .caller).unread = subscribe "a" ∧
      (s.pipe .caller).unread = (Relayed.Client.new true opening).sent ∧ inPieces.countP Act.moves = 7 := by
  intro opening
  have hend : (Machine.run (step (crate 10 opening.forARelay))
      (start (crate 10 opening.forARelay) fun _ => true) inPieces).any (fun s =>
        s.place .caller = .through ∧ s.place .listener = .through ∧
          (s.pipe .caller).taken = handshake) = true := by decide +kernel
  obtain ⟨s, hrun, hs⟩ := (Option.any_eq_true _ _).1 hend
  obtain ⟨hcaller, hlistener, htaken⟩ := of_decide_eq_true hs
  obtain ⟨-, -, -, -, hcrate⟩ := greets true hrun
  obtain ⟨-, -, hthrough⟩ := hcrate fun _ => rfl
  have hunread := (hthrough fun side => by cases side <;> assumption).1
  exact ⟨s, hrun, htaken, hunread.trans rfl, hunread, by decide⟩

end LcmBus.Opening
