import LcmBus.Lib.Run
import LcmBus.Wire.Log

/-!
# The writer of a log

`publish`, `publish_at`, `flush` and `close` of a client that writes a log, from any number of
threads.

* `BufWriter`: the bytes on the file and the ones behind those, with a call that fails at any byte;
* `step`: what a thread does under the lock is one step, and the tests in front of the lock are
  others, so a publish waits while the writer is closed or fails;
* `Written` and `Written.step`: the file and the buffer are the events that were accepted, and a part
  of the one whose write failed;
* `leaves_a_readable_log`: what is on the file in every state.
-/

namespace LcmBus

open Log

/-! ### The buffer and its file -/

/-- A `BufWriter` on a file: what the file has, and what it does not have yet. -/
structure BufWriter where
  file : Bytes
  buffered : Bytes
  deriving DecidableEq, Repr

/-- How a call of a `BufWriter` goes: how many bytes it passes on to the file, and, of a write that
fails, how many it took before. -/
inductive Went
  | ok (passed : ℕ)
  | failed (took passed : ℕ)
  deriving DecidableEq, Repr

namespace BufWriter

/-- Bytes go to the file in their order. -/
def passOn (w : BufWriter) (passed : ℕ) : BufWriter :=
  ⟨w.file ++ w.buffered.take passed, w.buffered.drop passed⟩

/-- Bytes come to the ones in the buffer. -/
def hold (w : BufWriter) (bytes : Bytes) : BufWriter :=
  { w with buffered := w.buffered ++ bytes }

/-- `write_all`: whether it worked, and what it leaves. -/
def writeAll (w : BufWriter) (bytes : Bytes) : Went → Bool × BufWriter
  | .ok passed => (true, (w.hold bytes).passOn passed)
  | .failed took passed => (false, (w.hold (bytes.take took)).passOn passed)

/-- `flush`: one that works leaves nothing in the buffer. -/
def flush (w : BufWriter) : Went → Bool × BufWriter
  | .ok _ => (true, w.passOn w.buffered.length)
  | .failed _ passed => (false, w.passOn passed)

/-- All it was ever given. -/
def bytes (w : BufWriter) : Bytes := w.file ++ w.buffered

@[simp] theorem bytes_passOn (w : BufWriter) (passed : ℕ) : (w.passOn passed).bytes = w.bytes := by
  simp [bytes, passOn]

@[simp] theorem bytes_hold (w : BufWriter) (more : Bytes) :
    (w.hold more).bytes = w.bytes ++ more := by
  simp [bytes, hold]

@[simp] theorem bytes_flush (w : BufWriter) (went : Went) : (w.flush went).2.bytes = w.bytes := by
  cases went <;> exact w.bytes_passOn _

/-- What a write gets in: the bytes, or where it fails the first of them. -/
theorem bytes_writeAll (w : BufWriter) (more : Bytes) (went : Went) :
    ∃ part, part <+: more ∧ (w.writeAll more went).2.bytes = w.bytes ++ part ∧
      ((w.writeAll more went).1 = true → part = more) := by
  cases went with
  | ok passed => exact ⟨more, List.prefix_rfl, by simp [writeAll], fun _ => rfl⟩
  | failed took passed =>
    exact ⟨more.take took, List.take_prefix _ _, by simp [writeAll], fun h => nomatch h⟩

/-- A buffer with nothing in it has nothing to flush. -/
theorem buffered_flush {w : BufWriter} (went : Went)
    (h : w.buffered = [] ∨ (w.flush went).1 = true) : (w.flush went).2.buffered = [] := by
  cases went with
  | ok passed => exact List.drop_length
  | failed took passed =>
    rcases h with h | h
    · simp [flush, passOn, h]
    · cases h

theorem file_isPrefix (w : BufWriter) : w.file <+: w.bytes := List.prefix_append _ _

end BufWriter

/-- One lock holds the file and the counter. -/
structure LogWriter where
  file : BufWriter
  events : Int64
  deriving DecidableEq, Repr

namespace LogWriter

/-! ### The threads of a client -/

/-- A call that waits for the lock. -/
inductive Call
  | publish (frame : Frame) (timestamp : Option Int64)
  | close
  deriving DecidableEq, Repr

/-- What came of a call. -/
inductive Answer
  /-- `Ok` of a publish. -/
  | published (event : Event)
  /-- `Closed`, before the lock or behind it. -/
  | closed (frame : Frame)
  /-- The encoder refused it. -/
  | refused (event : Event) (e : WireError)
  /-- `Io`, of the write. -/
  | failed (event : Event)
  /-- Of a `flush`: whether it was `Ok`. -/
  | flushed (ok : Bool)
  /-- Of a `close`: whether it was `Ok`. -/
  | shut (ok : Bool)
  deriving DecidableEq, Repr

structure State where
  writable : Bool
  writer : LogWriter
  calls : ℕ → Option Call
  answered : List Answer

/-- A log that was opened with mode `w`. -/
def start : State := ⟨true, ⟨⟨[], []⟩, 0⟩, fun _ => none, []⟩

namespace State

def answer (s : State) (found : Answer) : State := { s with answered := s.answered ++ [found] }

def waits (s : State) (name : ℕ) (call : Call) : State :=
  { s with calls := Function.update s.calls name (some call) }

/-- The call is through, and its thread can make another. -/
def leave (s : State) (name : ℕ) : State := { s with calls := Function.update s.calls name none }

/-- `write` in front of the lock. -/
def publish (s : State) (name : ℕ) (frame : Frame) (timestamp : Option Int64) : State :=
  if s.writable then s.waits name (.publish frame timestamp) else s.answer (.closed frame)

/-- `write` in the lock. -/
def write (s : State) (frame : Frame) (timestamp : Option Int64) (now : Int64) (went : Went) :
    State :=
  -- A write that failed while this one waited leaves part of an event in the log.
  if !s.writable then s.answer (.closed frame)
  else
    let event : Event :=
      { number := s.writer.events, timestamp := timestamp.getD now, frame }
    match encode event with
    | .error e => s.answer (.refused event e)
    | .ok bytes =>
      match s.writer.file.writeAll bytes went with
      | (false, file) =>
        { s with writable := false, writer := { s.writer with file } }.answer (.failed event)
      | (true, file) =>
        { s with writer := ⟨file, s.writer.events + 1⟩ }.answer (.published event)

/-- `flush`. -/
def flush (s : State) (went : Went) : State :=
  match s.writer.file.flush went with
  | (false, file) =>
    { s with writable := false, writer := { s.writer with file } }.answer (.flushed false)
  | (true, file) => { s with writer := { s.writer with file } }.answer (.flushed true)

/-- `close` in front of the lock. -/
def close (s : State) (name : ℕ) : State := { s with writable := false }.waits name .close

/-- `close` in the lock. -/
def lastFlush (s : State) (went : Went) : State :=
  match s.writer.file.flush went with
  | (flushed, file) => { s with writer := { s.writer with file } }.answer (.shut flushed)

end State

/-- A thread calls, or has the lock. -/
inductive Act
  | publish (name : ℕ) (frame : Frame) (timestamp : Option Int64)
  | write (name : ℕ) (now : Int64) (went : Went)
  | flush (name : ℕ) (went : Went)
  | close (name : ℕ)
  | lastFlush (name : ℕ) (went : Went)
  deriving DecidableEq, Repr

def step (s : State) : Act → Option State
  | .publish name frame timestamp =>
    match s.calls name with
    | none => some (s.publish name frame timestamp)
    | some _ => none
  | .write name now went =>
    match s.calls name with
    | some (.publish frame timestamp) => some ((s.leave name).write frame timestamp now went)
    | _ => none
  | .flush name went =>
    match s.calls name with
    | none => some (s.flush went)
    | some _ => none
  | .close name =>
    match s.calls name with
    | none => some (s.close name)
    | some _ => none
  | .lastFlush name went =>
    match s.calls name with
    | some .close => some ((s.leave name).lastFlush went)
    | _ => none

/-! ### What was written -/

namespace Answer

/-- The event of a publish that gave back `Ok`. -/
def accepted : Answer → Option Event
  | published event => some event
  | _ => none

/-- The event whose write failed. -/
def torn : Answer → Option Event
  | failed event => some event
  | _ => none

/-- It brought bytes to the file. -/
def writes : Answer → Bool
  | published _ | failed _ => true
  | _ => false

/-- It left a writer that takes no more. -/
def ends : Answer → Bool
  | failed _ | flushed false | shut _ => true
  | _ => false

end Answer

/-- The accepted events, in the order they were accepted. -/
def State.accepted (s : State) : List Event := s.answered.filterMap Answer.accepted

/-- The events whose own write failed. -/
def State.torn (s : State) : List Event := s.answered.filterMap Answer.torn

/-- What `encode` makes of the events, one behind another. -/
def written (events : List Event) : Bytes :=
  events.flatMap fun event => (encode event).toOption.getD []

theorem written_append (events more : List Event) :
    written (events ++ more) = written events ++ written more := List.flatMap_append

theorem written_singleton {event : Event} {bytes : Bytes} (h : encode event = .ok bytes) :
    written [event] = bytes := by
  simp [written, h, Except.toOption]

/-- What holds in every state: the bytes that went in are the events that were accepted, numbered
from zero, and a part of the one whose write failed; and an answer that ends the writer has no event
behind it. -/
structure Written (s : State) : Prop where
  encodes : ∀ event ∈ s.accepted ++ s.torn, ∃ bytes, encode event = .ok bytes
  numbers : s.accepted.map Event.number = (List.range s.accepted.length).map Int64.ofNat
  events_eq : s.writer.events = Int64.ofNat s.accepted.length
  bytes_eq : ∃ part, part <+: written s.torn ∧ s.writer.file.bytes = written s.accepted ++ part
  takes : s.writable = true → ∀ found ∈ s.answered, found.ends = false
  stops : s.answered.Pairwise fun found later => found.ends = true → later.writes = false
  closing : ∀ name, s.calls name = some .close → s.writable = false
  emptied : .shut true ∈ s.answered → s.writer.file.buffered = []

namespace Written

variable {s : State}

theorem start : Written start where
  encodes := by simp [LogWriter.start, State.accepted, State.torn]
  numbers := rfl
  events_eq := rfl
  bytes_eq := ⟨[], List.nil_prefix, rfl⟩
  takes := by simp [LogWriter.start]
  stops := List.Pairwise.nil
  closing := by simp [LogWriter.start]
  emptied := by simp [LogWriter.start]

/-- The writer takes events, so none of those before it ended it. -/
theorem torn_eq_nil (h : Written s) (hopen : s.writable = true) : s.torn = [] := by
  apply List.filterMap_eq_nil_iff.2
  intro found hfound
  have hends := h.takes hopen found hfound
  cases found <;> first | rfl | simp [Answer.ends] at hends

/-- A call that leaves the file as it is and gets no event in. -/
theorem answer (h : Written s) (found : Answer) (hwrites : found.writes = false)
    (hends : s.writable = true → found.ends = false)
    (hshut : found = .shut true → s.writer.file.buffered = []) : Written (s.answer found) := by
  have haccepted : (s.answer found).accepted = s.accepted := by
    cases found <;> simp_all [State.answer, State.accepted, Answer.accepted, Answer.writes]
  have htorn : (s.answer found).torn = s.torn := by
    cases found <;> simp_all [State.answer, State.torn, Answer.torn, Answer.writes]
  constructor
  · rw [haccepted, htorn]
    exact h.encodes
  · rw [haccepted]
    exact h.numbers
  · rw [haccepted]
    exact h.events_eq
  · rw [haccepted, htorn]
    exact h.bytes_eq
  · intro hopen other hother
    rcases List.mem_append.1 hother with hother | hother
    · exact h.takes hopen other hother
    · rw [List.mem_singleton.1 hother]
      exact hends hopen
  · apply List.pairwise_append.2
    refine ⟨h.stops, List.pairwise_singleton _ _, fun other _ last hlast _ => ?_⟩
    rw [List.mem_singleton.1 hlast]
    exact hwrites
  · exact h.closing
  · intro hmem
    rcases List.mem_append.1 hmem with hmem | hmem
    · exact h.emptied hmem
    · exact hshut (List.mem_singleton.1 hmem).symm

/-- The flag goes down. -/
theorem unwritable (h : Written s) : Written { s with writable := false } :=
  { h with takes := fun hopen => (Bool.false_ne_true hopen).elim, closing := fun _ _ => rfl }

/-- Bytes of the buffer go to the file. -/
theorem passed (h : Written s) {file : BufWriter} (hbytes : file.bytes = s.writer.file.bytes)
    (hbuffered : s.writer.file.buffered = [] → file.buffered = []) :
    Written { s with writer := { s.writer with file } } :=
  { h with
    bytes_eq := by
      obtain ⟨part, hpart, heq⟩ := h.bytes_eq
      exact ⟨part, hpart, hbytes.trans heq⟩
    emptied := fun hmem => hbuffered (h.emptied hmem) }

/-- A thread that goes to wait for the lock, or comes from there. -/
theorem called (h : Written s) {calls : ℕ → Option Call}
    (hcalls : ∀ name, calls name = some .close → s.writable = false) :
    Written { s with calls } :=
  { h with closing := hcalls }

theorem leave (h : Written s) (name : ℕ) : Written (s.leave name) := by
  apply h.called
  intro other hother
  rcases eq_or_ne other name with rfl | hne
  · simp at hother
  · rw [Function.update_of_ne hne] at hother
    exact h.closing other hother

theorem waits (h : Written s) {name : ℕ} {call : Call} (hcall : call = .close → s.writable = false) :
    Written (s.waits name call) := by
  apply h.called
  intro other hother
  rcases eq_or_ne other name with rfl | hne
  · rw [Function.update_self] at hother
    exact hcall (Option.some.inj hother)
  · rw [Function.update_of_ne hne] at hother
    exact h.closing other hother

/-- An event that is in the file as a whole, and has the number of the counter. -/
theorem published (h : Written s) (hopen : s.writable = true) {event : Event} {bytes : Bytes}
    {file : BufWriter} (hnumber : event.number = s.writer.events) (hencode : encode event = .ok bytes)
    (hbytes : file.bytes = s.writer.file.bytes ++ bytes) :
    Written ({ s with writer := ⟨file, s.writer.events + 1⟩ }.answer (.published event)) := by
  have htorn := h.torn_eq_nil hopen
  set t := { s with writer := ⟨file, s.writer.events + 1⟩ }.answer (.published event) with ht
  have haccepted : t.accepted = s.accepted ++ [event] := by
    simp [ht, State.answer, State.accepted, Answer.accepted]
  have htorn' : t.torn = [] := by
    rw [← htorn]
    simp [ht, State.answer, State.torn, Answer.torn]
  constructor
  · rw [haccepted, htorn', List.append_nil]
    intro other hother
    rcases List.mem_append.1 hother with hother | hother
    · exact h.encodes other (List.mem_append_left _ hother)
    · rw [List.mem_singleton.1 hother]
      exact ⟨bytes, hencode⟩
  · rw [haccepted, List.map_append, h.numbers, List.length_append, List.length_singleton,
      List.range_succ, List.map_append, List.map_singleton, List.map_singleton, hnumber, h.events_eq]
  · rw [haccepted, List.length_append, List.length_singleton, Int64.ofNat_add, ← h.events_eq]
    rfl
  · refine ⟨[], List.nil_prefix, ?_⟩
    obtain ⟨part, hpart, heq⟩ := h.bytes_eq
    rw [htorn, written, List.flatMap_nil, List.prefix_nil] at hpart
    rw [haccepted, written_append, written_singleton hencode]
    show file.bytes = _
    rw [hbytes, heq, hpart, List.append_nil, List.append_nil]
  · intro _ other hother
    rcases List.mem_append.1 hother with hother | hother
    · exact h.takes hopen other hother
    · rw [List.mem_singleton.1 hother]
      rfl
  · apply List.pairwise_append.2
    refine ⟨h.stops, List.pairwise_singleton _ _, fun other hother _ _ hends => ?_⟩
    rw [h.takes hopen other hother] at hends
    cases hends
  · exact h.closing
  · intro hmem
    rcases List.mem_append.1 hmem with hmem | hmem
    · exact nomatch h.takes hopen _ hmem
    · exact nomatch List.mem_singleton.1 hmem

/-- The event whose write fails is the last one to bring bytes. -/
theorem failed (h : Written s) (hopen : s.writable = true) {event : Event} {bytes part : Bytes}
    {file : BufWriter} (hencode : encode event = .ok bytes) (hpart : part <+: bytes)
    (hbytes : file.bytes = s.writer.file.bytes ++ part) :
    Written ({ s with writable := false, writer := { s.writer with file } }.answer
      (.failed event)) := by
  have htorn := h.torn_eq_nil hopen
  set t := { s with writable := false, writer := { s.writer with file } }.answer (.failed event)
    with ht
  have haccepted : t.accepted = s.accepted := by
    simp [ht, State.answer, State.accepted, Answer.accepted]
  have htorn' : t.torn = [event] := by
    have : t.torn = s.torn ++ [event] := by simp [ht, State.answer, State.torn, Answer.torn]
    rw [this, htorn, List.nil_append]
  constructor
  · rw [haccepted, htorn']
    intro other hother
    rcases List.mem_append.1 hother with hother | hother
    · exact h.encodes other (List.mem_append_left _ hother)
    · rw [List.mem_singleton.1 hother]
      exact ⟨bytes, hencode⟩
  · rw [haccepted]
    exact h.numbers
  · rw [haccepted]
    exact h.events_eq
  · refine ⟨part, ?_, ?_⟩
    · rw [htorn', written_singleton hencode]
      exact hpart
    · obtain ⟨before, hbefore, heq⟩ := h.bytes_eq
      rw [htorn, written, List.flatMap_nil, List.prefix_nil] at hbefore
      rw [haccepted]
      show file.bytes = _
      rw [hbytes, heq, hbefore, List.append_nil]
  · exact fun hwritable => (Bool.false_ne_true hwritable).elim
  · apply List.pairwise_append.2
    refine ⟨h.stops, List.pairwise_singleton _ _, fun other hother _ _ hends => ?_⟩
    rw [h.takes hopen other hother] at hends
    cases hends
  · exact fun _ _ => rfl
  · intro hmem
    rcases List.mem_append.1 hmem with hmem | hmem
    · exact nomatch h.takes hopen _ hmem
    · exact nomatch List.mem_singleton.1 hmem

/-- `write` in the lock: it finds the flag down, is refused by the encoder, fails, or works. -/
theorem write (h : Written s) (frame : Frame) (timestamp : Option Int64) (now : Int64) (went : Went) :
    Written (s.write frame timestamp now went) := by
  unfold State.write
  by_cases hopen : s.writable = true
  · rw [hopen]
    simp only [Bool.not_true, Bool.false_eq_true, if_false]
    cases hencode : encode { number := s.writer.events, timestamp := timestamp.getD now, frame } with
    | error e => exact h.answer _ rfl (fun _ => rfl) (fun hshut => nomatch hshut)
    | ok bytes =>
      obtain ⟨part, hpart, hbytes, hwhole⟩ := s.writer.file.bytes_writeAll bytes went
      rcases hwent : s.writer.file.writeAll bytes went with ⟨_ | _, file⟩
      · rw [hwent] at hbytes
        have hfailed := h.failed hopen hencode hpart hbytes
        simpa only [hwent] using hfailed
      · rw [hwent] at hbytes hwhole
        rw [hwhole rfl] at hbytes
        have hpublished := h.published hopen rfl hencode hbytes
        rw [hopen] at hpublished
        simpa only [hwent] using hpublished
  · rw [Bool.not_eq_true] at hopen
    rw [hopen]
    exact h.answer _ rfl (fun _ => rfl) (fun hshut => nomatch hshut)

/-- What a flush of the file leaves, whatever comes of it. -/
theorem flushed (h : Written s) (went : Went) :
    Written { s with writer := { s.writer with file := (s.writer.file.flush went).2 } } :=
  h.passed (s.writer.file.bytes_flush went) fun hempty => BufWriter.buffered_flush went (.inl hempty)

theorem flush (h : Written s) (went : Went) : Written (s.flush went) := by
  have hfile := h.flushed went
  unfold State.flush
  rcases hwent : s.writer.file.flush went with ⟨_ | _, file⟩ <;> rw [hwent] at hfile
  · exact hfile.unwritable.answer (.flushed false) rfl
      (fun hopen => (Bool.false_ne_true hopen).elim) (fun hshut => nomatch hshut)
  · exact hfile.answer (.flushed true) rfl (fun _ => rfl) (fun hshut => nomatch hshut)

theorem close (h : Written s) (name : ℕ) : Written (s.close name) :=
  h.unwritable.waits fun _ => rfl

theorem lastFlush (h : Written s) (hclosed : s.writable = false) (went : Went) :
    Written (s.lastFlush went) := by
  have hfile := h.flushed went
  have hempty := fun hok => BufWriter.buffered_flush (w := s.writer.file) went (.inr hok)
  unfold State.lastFlush
  rcases hwent : s.writer.file.flush went with ⟨ok, file⟩
  rw [hwent] at hfile hempty
  refine hfile.answer (.shut ok) rfl ?_ ?_
  · intro hopen
    exact nomatch hclosed.symm.trans hopen
  · intro hshut
    exact hempty (Answer.shut.inj hshut)

/-- **Every step keeps the log.** -/
theorem step (h : Written s) {t : State} {act : Act} (hstep : LogWriter.step s act = some t) :
    Written t := by
  cases act with
  | publish name frame timestamp =>
    cases hcall : s.calls name <;> rw [LogWriter.step, hcall] at hstep <;> cases hstep
    unfold State.publish
    split_ifs
    · exact h.waits fun hclose => nomatch hclose
    · exact h.answer _ rfl (fun _ => rfl) (fun hshut => nomatch hshut)
  | write name now went =>
    rcases hcall : s.calls name with _ | _ | _ <;> rw [LogWriter.step, hcall] at hstep <;> cases hstep
    exact (h.leave name).write _ _ _ _
  | flush name went =>
    cases hcall : s.calls name <;> rw [LogWriter.step, hcall] at hstep <;> cases hstep
    exact h.flush went
  | close name =>
    cases hcall : s.calls name <;> rw [LogWriter.step, hcall] at hstep <;> cases hstep
    exact h.close name
  | lastFlush name went =>
    rcases hcall : s.calls name with _ | _ | _ <;> rw [LogWriter.step, hcall] at hstep <;> cases hstep
    exact (h.leave name).lastFlush (h.closing name hcall) went

theorem of_run {acts : List Act} (hrun : Machine.run LogWriter.step LogWriter.start acts = some s) :
    Written s :=
  Machine.run_invariant (fun _ _ _ hs hstep => hs.step hstep) start hrun

/-- What is on the file comes in the order it went in. -/
theorem file_isPrefix (h : Written s) :
    s.writer.file.file <+: written s.accepted ++ written s.torn := by
  obtain ⟨part, hpart, heq⟩ := h.bytes_eq
  have hfile := s.writer.file.file_isPrefix
  rw [heq] at hfile
  exact hfile.trans ((List.prefix_append_right_inj _).2 hpart)

/-- No answer behind one that ended the writer brought bytes. -/
theorem writes_behind (h : Written s) {before behind : List Answer} {found : Answer}
    (heq : s.answered = before ++ found :: behind) (hends : found.ends = true) :
    ∀ later ∈ behind, later.writes = false := by
  intro later hlater
  have hstops := h.stops
  rw [heq] at hstops
  exact List.rel_of_pairwise_cons (List.pairwise_append.1 hstops).2.1 hlater hends

/-- A write that fails leaves no other to fail. -/
theorem length_torn (h : Written s) : s.torn.length ≤ 1 := by
  have hnone : s.torn.Pairwise fun _ _ => False := by
    apply List.Pairwise.filterMap Answer.torn _ h.stops
    intro found later hstops _ hfound _ hlater
    cases found <;> cases hfound
    cases later <;> cases hlater
    exact nomatch hstops rfl
  rcases htorn : s.torn with _ | ⟨first, _ | ⟨second, rest⟩⟩
  · simp
  · simp
  · rw [htorn] at hnone
    exact (List.rel_of_pairwise_cons hnone (List.mem_cons_self ..)).elim

/-- Where nothing failed before it, a `close` that is `Ok` leaves no byte behind. -/
theorem file_eq (h : Written s) {before behind : List Answer}
    (heq : s.answered = before ++ .shut true :: behind) (hfine : ∀ event, .failed event ∉ before) :
    s.writer.file.file = written s.accepted := by
  have hempty := h.emptied (by rw [heq]; simp)
  have htorn : s.torn = [] := by
    apply List.filterMap_eq_nil_iff.2
    intro found hfound
    rw [heq] at hfound
    rcases List.mem_append.1 hfound with hfound | hfound
    · cases found <;> first | rfl | exact (hfine _ hfound).elim
    · rcases List.mem_cons.1 hfound with rfl | hfound
      · rfl
      · have hwrites := h.writes_behind heq rfl found hfound
        cases found <;> first | rfl | cases hwrites
  obtain ⟨part, hpart, hbytes⟩ := h.bytes_eq
  rw [htorn, written, List.flatMap_nil, List.prefix_nil] at hpart
  rw [BufWriter.bytes, hempty, hpart, List.append_nil, List.append_nil] at hbytes
  exact hbytes

end Written

/-- **A log writer leaves a readable log**, whichever threads publish, flush and close, and whichever
byte of whichever write fails.  The file has a prefix of the accepted events, numbered from zero, and
of the one whose own write failed behind those.  A publish that is no `Ok` does not move the counter.
Behind a write or a flush that failed, and behind a `close`, no event comes to the file; and a
`close` that is `Ok` with no failed write before it leaves every accepted event there. -/
theorem leaves_a_readable_log {acts : List Act} {s : State}
    (hrun : Machine.run step start acts = some s) :
    s.writer.file.file <+: written s.accepted ++ written s.torn ∧ s.torn.length ≤ 1 ∧
      (∀ event ∈ s.accepted ++ s.torn, ∃ bytes, encode event = .ok bytes) ∧
      s.accepted.map Event.number = (List.range s.accepted.length).map Int64.ofNat ∧
      s.writer.events = Int64.ofNat s.accepted.length ∧
      (∀ before found behind, s.answered = before ++ found :: behind → found.ends = true →
        ∀ later ∈ behind, later.writes = false) ∧
      ∀ before behind, s.answered = before ++ .shut true :: behind →
        (∀ event, .failed event ∉ before) →
          s.writer.file.file = written s.accepted ∧ ∀ event, .published event ∉ behind := by
  have hwritten := Written.of_run hrun
  refine ⟨hwritten.file_isPrefix, hwritten.length_torn, hwritten.encodes, hwritten.numbers,
    hwritten.events_eq, fun before found behind heq => hwritten.writes_behind heq, ?_⟩
  intro before behind heq hfine
  refine ⟨hwritten.file_eq heq hfine, fun event hevent => ?_⟩
  cases hwritten.writes_behind heq rfl _ hevent

/-- Two threads publish, and a third closes while the second one waits for the lock. -/
theorem leaves_a_readable_log_of_two :
    let acts : List Act := [.publish 0 ⟨"a", [1]⟩ (some 5), .publish 1 ⟨"b", []⟩ none,
      .write 0 9 (.ok 3), .close 2, .lastFlush 2 (.ok 0), .write 1 9 (.ok 0)]
    let event : Event := ⟨0, 5, ⟨"a", [1]⟩⟩
    ∃ s, Machine.run step start acts = some s ∧ s.writer.file.file = written s.accepted ∧
      s.answered = [.published event, .shut true, .closed ⟨"b", []⟩] := by
  intro acts event
  obtain ⟨s, hrun, hanswered⟩ : ∃ s, Machine.run step start acts = some s ∧
      s.answered = [.published event, .shut true, .closed ⟨"b", []⟩] := ⟨_, rfl, rfl⟩
  have hclosed := (leaves_a_readable_log hrun).2.2.2.2.2.2 [.published event] [.closed ⟨"b", []⟩]
    hanswered (by simp)
  exact ⟨s, hrun, hclosed.1, hanswered⟩

/-- A write that fails in the middle of an event, and one that waited for it. -/
example : (Machine.run step start [.publish 0 ⟨"a", [1]⟩ (some 5), .publish 1 ⟨"b", []⟩ none,
    .write 0 9 (.failed 29 29), .write 1 9 (.ok 0)]).map (fun s => (s.writer.file.file.length,
      s.accepted, s.torn)) = some (29, [], [⟨0, 5, ⟨"a", [1]⟩⟩]) := by
  decide +kernel

end LogWriter

end LcmBus
