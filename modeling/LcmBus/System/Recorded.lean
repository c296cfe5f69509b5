import LcmBus.Bus.BusUrl
import LcmBus.Client.LogCut
import LcmBus.Client.LogWriter
import LcmBus.Wire.LogFormat

/-!
# A log, from its writers to its reader

A file that clients write to one behind another, each as `open_log` opens it, and a replay of it.  A
client may go at any point, and what its buffer had goes with it.

* `State` and `step`: a step of any thread of the client that has the file open, or the next one opens it;
* `State.kept`: the events of a client that are whole on the file;
* `recorded`: of a past, those of the clients before it, since the file was last made empty;
* `replays_what_was_recorded`: a replay gives these events and no other, as long as no client appends
  behind a part of an event;
* `loses_what_is_appended`: where one does, the events behind that part are not replayed before there are
  as many bytes as it lacks.
-/

namespace LcmBus.Recorded

open Log LogFile LogWriter

/-! ### The file and its writers -/

structure State where
  /-- What is on the file from the clients before. -/
  before : Bytes
  client : LogWriter.State

namespace State

/-- What is on the file. -/
def file (s : State) : Bytes := s.before ++ s.client.writer.file.file

/-- What a client wrote of its events, in order: those accepted, and the one whose write failed. -/
def events (s : State) : List Event := s.client.accepted ++ s.client.torn

end State

/-- A new file. -/
def start : State := ⟨[], LogWriter.start⟩

inductive Act
  /-- A thread of the client. -/
  | thread (act : LogWriter.Act)
  /-- The client goes, and another opens the file to write. -/
  | openLog (mode : Url.LogMode)
  deriving DecidableEq, Repr

def step (s : State) : Act → Option State
  | .thread act => (LogWriter.step s.client act).map fun client => { s with client }
  | .openLog .write => some ⟨[], LogWriter.start⟩
  | .openLog .append => some ⟨s.file, LogWriter.start⟩
  | .openLog .read => none

/-- The events that are whole in the first `cut` bytes of what was written of them. -/
def fitting : List Event → ℕ → List Event
  | [], _ => []
  | event :: events, cut =>
    if (written [event]).length ≤ cut then event :: fitting events (cut - (written [event]).length)
    else []

/-- The events of the client that are whole on the file. -/
def State.kept (s : State) : List Event := fitting s.events s.client.writer.file.file.length

/-- The file ends where an event does. -/
def State.Whole (s : State) : Prop := s.client.writer.file.file = written s.kept

instance (s : State) : Decidable s.Whole := inferInstanceAs (Decidable (_ = _))

abbrev Past := List (State × Act × State)

/-- The events of the clients before, since one of them last made the file empty. -/
def recorded (past : Past) : List Event :=
  past.foldl (fun events entry => match entry.2.1 with
    | .openLog .write => []
    | .openLog .append => events ++ entry.1.kept
    | _ => events) []

/-- A client that appends does so behind whole events. -/
def AppendsWhole (s : State) (act : Act) : Prop := act = .openLog .append → s.Whole

instance (s : State) (act : Act) : Decidable (AppendsWhole s act) :=
  inferInstanceAs (Decidable (_ → _))

/-! ### Events and the entries of a log -/

/-- Each of the events has an encoding. -/
def Encode (events : List Event) : Prop := ∀ event ∈ events, ∃ bytes, encode event = .ok bytes

/-- Events that were encoded are the entries of a log. -/
theorem exists_entries {events : List Event} (h : Encode events) :
    ∃ entries : List Entry, bytesOf entries = written events ∧
      entries.map Entry.event = events.map some := by
  induction events with
  | nil => exact ⟨[], rfl, rfl⟩
  | cons event events ih =>
    obtain ⟨bytes, hencode⟩ := h event List.mem_cons_self
    obtain ⟨entries, hbytes, hevents⟩ := ih fun other hother => h other (List.mem_cons_of_mem _ hother)
    obtain ⟨e, hevent, rfl⟩ := exists_entry_of_encode hencode
    refine ⟨e :: entries, ?_, ?_⟩
    · rw [bytesOf_cons, hbytes, ← written_singleton hencode, ← written_append, List.singleton_append]
    · rw [List.map_cons, List.map_cons, hevent, hevents]

/-- The entries that are whole in front of a cut are the events that fit. -/
theorem filterMap_whole {entries : List Entry} {events : List Event}
    (h : entries.map Entry.event = events.map some) (cut : ℕ) :
    bytesOf (whole entries cut) = written (fitting events cut) ∧
      (whole entries cut).map Entry.event = (fitting events cut).map some := by
  induction entries generalizing events cut with
  | nil =>
    obtain rfl : events = [] := List.map_eq_nil_iff.1 h.symm
    exact ⟨rfl, rfl⟩
  | cons e entries ih =>
    cases events with
    | nil => cases h
    | cons event events =>
      obtain ⟨hevent, hrest⟩ := List.cons_eq_cons.1 h
      have hbytes : written [event] = e.bytes := written_singleton (encode_of_event hevent)
      unfold whole fitting
      rw [hbytes]
      split_ifs with hcut
      · obtain ⟨hwhole, hmap⟩ := ih hrest (cut - e.bytes.length)
        constructor
        · rw [bytesOf_cons, hwhole, ← hbytes, ← written_append, List.singleton_append]
        · rw [List.map_cons, List.map_cons, hevent, hmap]
      · exact ⟨rfl, rfl⟩

theorem filterMap_event {entries : List Entry} {events : List Event}
    (h : entries.map Entry.event = events.map some) : entries.filterMap Entry.event = events := by
  have hall := congrArg (List.filterMap id) h
  simpa [List.filterMap_map] using hall

theorem length_of_event {entries : List Entry} {events : List Event}
    (h : entries.map Entry.event = events.map some) : entries.length = events.length := by
  have hall := congrArg List.length h
  rwa [List.length_map, List.length_map] at hall

/-- No entry of a log that clients wrote is without an event. -/
theorem countP_isNone_of_event {entries : List Entry} {events : List Event}
    (h : entries.map Entry.event = events.map some) :
    entries.countP (fun e => e.event.isNone) = 0 := by
  refine List.countP_eq_zero.2 fun e he => ?_
  obtain ⟨event, -, hevent⟩ := List.mem_map.1 (h ▸ List.mem_map_of_mem (f := Entry.event) he)
  rw [← hevent]
  exact Bool.false_ne_true

/-- What fits is the first of the events, and its bytes are the first of theirs. -/
theorem fitting_isPrefix (events : List Event) (cut : ℕ) : fitting events cut <+: events := by
  induction events generalizing cut with
  | nil => exact List.prefix_rfl
  | cons event events ih =>
    unfold fitting
    split_ifs
    · exact List.cons_prefix_cons.2 ⟨rfl, ih _⟩
    · exact List.nil_prefix

/-- What is whole already stays so, whatever comes behind it. -/
theorem fitting_append (events more : List Event) (cut : ℕ) :
    fitting (events ++ more) ((written events).length + cut) = events ++ fitting more cut := by
  induction events with
  | nil => simp [written]
  | cons event events ih =>
    have hsplit : (written (event :: events)).length =
        (written [event]).length + (written events).length := by
      rw [← List.singleton_append, written_append, List.length_append]
    rw [List.cons_append, fitting, if_pos (by omega), hsplit, Nat.add_assoc, Nat.add_sub_cancel_left, ih,
      List.cons_append]

/-! ### What holds in every run -/

/-- What holds behind a run in which no client appended behind a part of an event. -/
structure Kept (s : State) (past : Past) : Prop where
  written : Written s.client
  encode : Encode (recorded past)
  before : s.before = LogWriter.written (recorded past)

theorem recorded_concat (past : Past) (entry : State × Act × State) :
    recorded (past ++ [entry]) = match entry.2.1 with
      | .openLog .write => []
      | .openLog .append => recorded past ++ entry.1.kept
      | _ => recorded past := by
  rw [recorded, List.foldl_append]
  rfl

theorem kept_start : Kept start [] where
  written := Written.start
  encode := fun event hevent => by cases hevent
  before := rfl

/-- **No step loses what was recorded**, where it does not open the file behind a part of an event. -/
theorem Kept.step {s t : State} {past : Past} {act : Act} (h : Kept s past) (hopen : AppendsWhole s act)
    (hstep : step s act = some t) : Kept t (past ++ [(s, act, t)]) := by
  have hrecorded := recorded_concat past (s, act, t)
  cases act with
  | thread act =>
    obtain ⟨client, hclient, rfl⟩ := Option.map_eq_some_iff.1 hstep
    exact ⟨h.written.step hclient, hrecorded ▸ h.encode, hrecorded ▸ h.before⟩
  | openLog mode =>
    cases mode with
    | read => cases hstep
    | write =>
      cases hstep
      refine ⟨Written.start, ?_, ?_⟩ <;> rw [hrecorded]
      · exact fun event hevent => by cases hevent
      · rfl
    | append =>
      cases hstep
      refine ⟨Written.start, ?_, ?_⟩ <;> rw [hrecorded]
      · intro event hevent
        rcases List.mem_append.1 hevent with hevent | hevent
        · exact h.encode event hevent
        · exact h.written.encodes event ((fitting_isPrefix _ _).subset hevent)
      · show s.before ++ s.client.writer.file.file = _
        rw [hopen rfl, h.before, written_append]

theorem kept_of_run {s : State} {acts : List Act} (hrun : Machine.run step start acts = some s)
    (hopen : Machine.Each step AppendsWhole start acts) :
    Kept s (Machine.transitions step start acts) := by
  have hkept := Machine.run_history_of_each (P := Kept) (fun _ _ _ _ h hopen hstep => h.step hopen hstep)
    kept_start hopen hrun
  rwa [List.nil_append] at hkept

/-- The file is the first bytes of the events, and those that are whole on it are these. -/
theorem Kept.file {s : State} {past : Past} (h : Kept s past) :
    s.file <+: LogWriter.written (recorded past ++ s.events) ∧
      fitting (recorded past ++ s.events) s.file.length = recorded past ++ s.kept := by
  rw [State.file, List.length_append, h.before]
  refine ⟨?_, fitting_append _ _ _⟩
  rw [written_append]
  refine (List.prefix_append_right_inj _).2 ?_
  rw [State.events, written_append]
  exact h.written.file_isPrefix

/-- A client whose `close` was `Ok`, and that had no write fail, leaves all of its events whole. -/
theorem whole_of_shut {s : State} (h : Written s.client) (hshut : .shut true ∈ s.client.answered)
    (htorn : s.client.torn = []) : s.Whole ∧ s.kept = s.client.accepted := by
  have hempty := h.emptied hshut
  obtain ⟨part, hpart, hbytes⟩ := h.bytes_eq
  rw [htorn, written, List.flatMap_nil, List.prefix_nil] at hpart
  rw [BufWriter.bytes, hempty, hpart, List.append_nil, List.append_nil] at hbytes
  have hall : s.kept = s.client.accepted := by
    have hfit := fitting_append s.client.accepted [] 0
    rw [State.kept, State.events, htorn, hbytes]
    exact hfit.trans (List.append_nil _)
  exact ⟨hbytes.trans (congrArg written hall.symm), hall⟩

/-! ### A replay -/

section Replay

variable {Regex : Type} (engine : Engine Regex) (subscriptions : Subscriptions Regex)

/-- What the handler of a replay hears of these events. -/
def heardOf (events : List Event) : List LogFile.Delivery :=
  (events.filter fun event => subscriptions.selects engine event.frame.channel).map deliveryOf

/-- **A replay gives what was recorded.**  Whatever clients wrote the file one behind another, from however
many threads and whatever writes failed, and wherever the last one is, a replay of the file gives the
events of the clients before and those that are whole on it, in the order they were accepted and each
once; and it says whether the file ends in a part of another. -/
theorem replays_what_was_recorded {s : State} {acts : List Act}
    (hrun : Machine.run step start acts = some s) (hopen : Machine.Each step AppendsWhole start acts)
    {cuts : List Cut} (hcuts : Cut.failed ∉ cuts) :
    let events := recorded (Machine.transitions step start acts)
    (s.kept <+: s.events ∧ (.shut true ∈ s.client.answered → s.client.torn = [] →
      s.Whole ∧ s.kept = s.client.accepted)) ∧
    ∃ turns t, Loop.after (logReader engine subscriptions none) turns (logStart ⟨s.file, cuts⟩) =
        (t, some (if s.Whole then .endOfLog else .tornLog)) ∧
      t.heard.delivered = heardOf engine subscriptions (events ++ s.kept) ∧
      t.heard.counters.received = (events ++ s.kept).length ∧
      t.heard.counters.discarded = if s.Whole then 0 else 1 := by
  intro events
  have hkept := kept_of_run hrun hopen
  obtain ⟨hfile, hfit⟩ := hkept.file
  refine ⟨⟨fitting_isPrefix _ _, whole_of_shut hkept.written⟩, ?_⟩
  · have hencode : Encode (events ++ s.events) := fun event hevent =>
      (List.mem_append.1 hevent).elim (hkept.encode event) (hkept.written.encodes event)
    obtain ⟨entries, hbytes, hmap⟩ := exists_entries hencode
    rw [← hbytes, List.prefix_iff_eq_take] at hfile
    obtain ⟨hwhole, hevents⟩ := filterMap_whole hmap s.file.length
    rw [hfit] at hwhole hevents
    have hstart : Cutting engine subscriptions none ⟨.zero, []⟩ entries s.file.length
        (logStart ⟨(bytesOf entries).take s.file.length, cuts⟩) := cutting_start hcuts
    rw [← hfile] at hstart
    obtain ⟨turns, t, stop, hend, hended⟩ := hstart.ends
    have hboundary : bytesOf (whole entries s.file.length) = (bytesOf entries).take s.file.length ↔
        s.Whole := by
      rw [hwhole, ← hfile, State.file, hkept.before, written_append, List.append_cancel_left_eq]
      exact eq_comm
    rw [Ended, foldEntries_eq, wanted_none, filterMap_event hevents, length_of_event hevents,
      countP_isNone_of_event hevents] at hended
    simp only [hboundary] at hended
    refine ⟨turns, t, ?_⟩
    split_ifs at hended ⊢ with hends
    · obtain ⟨rfl, hheard⟩ := hended
      rw [hheard]
      exact ⟨hend, rfl, Nat.zero_add _, rfl⟩
    · obtain ⟨rfl, hheard⟩ := hended
      rw [hheard]
      exact ⟨hend, rfl, Nat.zero_add _, rfl⟩

/-- One client writes an event and closes.  Another appends an event, and has the write of a third fail
in the middle. -/
def tornBehindTwo : List Act :=
  [.thread (.publish 0 ⟨"a", [1]⟩ (some 5)), .thread (.write 0 9 (.ok 3)), .thread (.close 0),
    .thread (.lastFlush 0 (.ok 0)), .openLog .append, .thread (.publish 1 ⟨"b", [2]⟩ (some 6)),
    .thread (.write 1 9 (.ok 30)), .thread (.publish 1 ⟨"a", List.replicate 40 3⟩ none),
    .thread (.write 1 9 (.failed 28 28))]

theorem replays_what_was_recorded_of_tornBehindTwo :
    ∃ s turns t, Machine.run step start tornBehindTwo = some s ∧
      Loop.after (logReader noPatterns ⟨[.name "a", .name "b"]⟩ none) turns
        (logStart ⟨s.file, [.bytes 8, .timedOut]⟩) = (t, some .tornLog) ∧
      t.heard.delivered = [⟨⟨"a", [1]⟩, 5, 0⟩, ⟨⟨"b", [2]⟩, 6, 0⟩] := by
  have hend : (Machine.run step start tornBehindTwo).map (fun s => (s.kept, decide s.Whole)) =
      some ([⟨0, 6, ⟨"b", [2]⟩⟩], false) := by decide +kernel
  obtain ⟨s, hrun, hs⟩ := Option.map_eq_some_iff.1 hend
  obtain ⟨hkept, hwhole⟩ := Prod.mk.injEq .. ▸ hs
  obtain ⟨-, turns, t, hafter, hdelivered, -, -⟩ := replays_what_was_recorded noPatterns
    ⟨[.name "a", .name "b"]⟩ hrun (by decide +kernel) (by decide : Cut.failed ∉ [.bytes 8, .timedOut])
  rw [if_neg (of_decide_eq_false hwhole)] at hafter
  refine ⟨s, turns, t, hrun, hafter, ?_⟩
  rw [hdelivered, hkept]
  decide +kernel

/-! ### Behind a part of an event -/

/-- The reader waits for all of an event, whatever is there in place of what it lacks. -/
theorem look_torn {e : Entry} {part more l : Bytes} (hpart : part <+: e.bytes)
    (hlong : headerLen ≤ part.length) (hl : l <+: part ++ more) (hshort : l.length < e.bytes.length) :
    ∃ n, look l = .need n := by
  by_cases hhead : l.length < headerLen
  · exact ⟨headerLen, by rw [look, decode_short hhead]⟩
  have hle := not_lt.1 hhead
  have htake : l.take headerLen = e.bytes.take headerLen := by
    obtain ⟨rest, hrest⟩ := hl
    obtain ⟨lacks, hlacks⟩ := hpart
    calc l.take headerLen = (l ++ rest).take headerLen := (List.take_append_of_le_length hle).symm
      _ = part.take headerLen := by rw [hrest, List.take_append_of_le_length hlong]
      _ = e.bytes.take headerLen := by rw [← hlacks, List.take_append_of_le_length hlong]
  have hread : head l = .ok e.head := by
    have hall := e.head_bytes []
    rw [List.append_nil] at hall
    rw [← head_take hle, htake, head_take e.headerLen_lt.le, hall]
  have hdecode := decode_of_head hle hread
  rw [← e.length_bytes, if_pos hshort] at hdecode
  exact ⟨_, by rw [look, hdecode]⟩

/-- **What the reader waits on to the end of the file hides all of it.** -/
theorem exists_end_of_tail (entries : List Entry) {tail : Bytes} (hne : tail ≠ [])
    (hsync : 4 ≤ tail.length → SyncAt tail 0) (hwaits : ∀ l, l <+: tail → ∃ n, look l = .need n)
    {cuts : List Cut} (hcuts : Cut.failed ∉ cuts) :
    ∃ turns t, Loop.after (logReader engine subscriptions none) turns
        (logStart ⟨bytesOf entries ++ tail, cuts⟩) = (t, some .tornLog) ∧
      t.heard = onLost (foldEntries engine subscriptions none ⟨.zero, []⟩ entries) := by
  have hbehind : ∀ rest : List Entry, 4 ≤ (bytesOf rest ++ tail).length →
      SyncAt (bytesOf rest ++ tail) 0 := fun rest hfour => by
    cases rest with
    | nil => exact hsync hfour
    | cons e rest =>
      rw [bytesOf_cons, List.append_assoc]
      exact e.syncAt_bytes _
  let Front (view : Bytes) (heard : Heard) : Prop := ∃ done rest, done ++ rest = entries ∧
    view = bytesOf rest ++ tail ∧ heard = foldEntries engine subscriptions none ⟨.zero, []⟩ done
  have htakes : ∀ view heard left found used, Front view heard → left <+: view →
      look left = .take found used →
      Front (view.drop used) (onFound engine subscriptions none heard found) := by
    rintro view heard left found used ⟨done, rest, hall, rfl, rfl⟩ hleft hlook
    cases rest with
    | nil =>
      obtain ⟨n, hneed⟩ := hwaits left hleft
      rw [hneed] at hlook
      cases hlook
    | cons e rest =>
      rw [bytesOf_cons, List.append_assoc] at hleft ⊢
      rcases look_entry_of_sync hleft (hbehind rest) with ⟨-, n, hneed⟩ | ⟨-, htake⟩
      · rw [hneed] at hlook
        cases hlook
      · rw [htake] at hlook
        cases hlook
        refine ⟨done ++ [e], rest, by rw [← hall, List.append_assoc, List.singleton_append],
          List.drop_left, ?_⟩
        rw [foldEntries, foldEntries, List.foldl_append]
        rfl
  have hends : ∀ view heard n, Front view heard → look view = .need n →
      (if view = [] then Stop.endOfLog else .tornLog) = .tornLog ∧
        (if view = [] then heard else onLost heard) =
          onLost (foldEntries engine subscriptions none ⟨.zero, []⟩ entries) := by
    rintro view heard n ⟨done, rest, hall, rfl, rfl⟩ hneed
    cases rest with
    | nil =>
      rw [bytesOf_nil, List.nil_append, if_neg hne, if_neg hne, ← hall, List.append_nil]
      exact ⟨rfl, rfl⟩
    | cons e rest =>
      rw [bytesOf_cons, List.append_assoc] at hneed
      exact absurd hneed look_whole_ne_need
  obtain ⟨turns, t, stop, hend, rfl, hheard⟩ := exists_end_of_view engine subscriptions none
    (Q := fun heard stop => stop = .tornLog ∧
      heard = onLost (foldEntries engine subscriptions none ⟨.zero, []⟩ entries))
    (s := logStart ⟨bytesOf entries ++ tail, cuts⟩) htakes hends ⟨le_max_left _ _, Nat.zero_le _⟩ hcuts
    ⟨[], entries, rfl, rfl, rfl⟩
  exact ⟨turns, t, hend, hheard⟩

end Replay

/-! ### What comes to a file stays -/

theorem file_writeAll (w : BufWriter) (bytes : Bytes) (went : Went) :
    w.file <+: (w.writeAll bytes went).2.file := by
  cases went <;> exact List.prefix_append _ _

theorem file_flush (w : BufWriter) (went : Went) : w.file <+: (w.flush went).2.file := by
  cases went <;> exact List.prefix_append _ _

/-- No thread of a client takes bytes off the file. -/
theorem client_file_step {c d : LogWriter.State} {act : LogWriter.Act}
    (hstep : LogWriter.step c act = some d) : c.writer.file.file <+: d.writer.file.file := by
  cases act with
  | publish name frame timestamp =>
    cases hcall : c.calls name <;> rw [LogWriter.step, hcall] at hstep <;> cases hstep
    unfold LogWriter.State.publish
    split_ifs <;> exact List.prefix_rfl
  | write name now went =>
    rcases hcall : c.calls name with _ | _ | _ <;> rw [LogWriter.step, hcall] at hstep <;> cases hstep
    unfold LogWriter.State.write
    dsimp only
    split_ifs with hclosed
    · exact List.prefix_rfl
    · split
      · exact List.prefix_rfl
      · next bytes hencode =>
        have hgrows := file_writeAll c.writer.file bytes went
        rcases hwent : c.writer.file.writeAll bytes went with ⟨_ | _, file⟩ <;> rw [hwent] at hgrows
        all_goals
          simp only [LogWriter.State.leave, hwent]
          exact hgrows
  | flush name went =>
    cases hcall : c.calls name <;> rw [LogWriter.step, hcall] at hstep <;> cases hstep
    have hgrows := file_flush c.writer.file went
    unfold LogWriter.State.flush
    rcases hwent : c.writer.file.flush went with ⟨_ | _, file⟩ <;> rw [hwent] at hgrows <;> exact hgrows
  | close name =>
    cases hcall : c.calls name <;> rw [LogWriter.step, hcall] at hstep <;> cases hstep
    exact List.prefix_rfl
  | lastFlush name went =>
    rcases hcall : c.calls name with _ | _ | _ <;> rw [LogWriter.step, hcall] at hstep <;> cases hstep
    exact file_flush c.writer.file went

/-- A file only grows, but for a client that makes it empty. -/
theorem file_step {s t : State} {act : Act} (hkeep : act ≠ .openLog .write)
    (hstep : step s act = some t) : s.file <+: t.file := by
  cases act with
  | thread act =>
    obtain ⟨client, hclient, rfl⟩ := Option.map_eq_some_iff.1 hstep
    exact (List.prefix_append_right_inj _).2 (client_file_step hclient)
  | openLog mode =>
    cases mode with
    | read => cases hstep
    | write => exact absurd rfl hkeep
    | append =>
      cases hstep
      exact List.prefix_append _ _

theorem file_of_run {s t : State} {acts : List Act} (hrun : Machine.run step s acts = some t)
    (hkeep : ∀ act ∈ acts, act ≠ .openLog .write) : s.file <+: t.file := by
  induction acts generalizing s with
  | nil => cases hrun; exact List.prefix_rfl
  | cons act acts ih =>
    obtain ⟨u, hu, hrest⟩ := Machine.run_cons_eq_some.1 hrun
    exact (file_step (hkeep act List.mem_cons_self) hu).trans
      (ih hrest fun other hother => hkeep other (List.mem_cons_of_mem _ hother))

/-- The event behind those that fit, where there are bytes of it, is not all there. -/
theorem exists_part {events : List Event} {cut : ℕ} {file : Bytes} (hfile : file <+: written events)
    (hcut : file.length = cut) (hpart : file ≠ written (fitting events cut)) :
    ∃ event rest, events = fitting events cut ++ event :: rest ∧
      ∃ part, part <+: written [event] ∧ file = written (fitting events cut) ++ part ∧ part ≠ [] := by
  induction events generalizing cut file with
  | nil =>
    rw [written, List.flatMap_nil, List.prefix_nil] at hfile
    exact absurd hfile hpart
  | cons event events ih =>
    rw [← List.singleton_append, written_append] at hfile
    unfold fitting at hpart ⊢
    split_ifs at hpart ⊢ with hfits
    · have hsplit : written (event :: fitting events (cut - (written [event]).length)) =
          written [event] ++ written (fitting events (cut - (written [event]).length)) := by
        rw [← List.singleton_append, written_append]
      obtain ⟨rest, rfl⟩ : written [event] <+: file :=
        List.prefix_of_prefix_length_le (List.prefix_append _ _) hfile (by omega)
      rw [hsplit] at hpart ⊢
      obtain ⟨torn, behind, hevents, part, htorn, hrest, hne⟩ :=
        ih ((List.prefix_append_right_inj _).1 hfile)
          (show rest.length = cut - (written [event]).length by
            rw [← hcut, List.length_append, Nat.add_sub_cancel_left])
          fun heq => hpart (congrArg _ heq)
      exact ⟨torn, behind, congrArg (event :: ·) hevents, part, htorn,
        (congrArg (written [event] ++ ·) hrest).trans (List.append_assoc _ _ _).symm, hne⟩
    · refine ⟨event, events, rfl, file, ?_, rfl, ?_⟩
      · exact List.prefix_of_prefix_length_le hfile (List.prefix_append _ _) (by omega)
      · rintro rfl
        exact hpart rfl

variable {Regex : Type} (engine : Engine Regex) (subscriptions : Subscriptions Regex)

/-- **What is appended behind a part of an event is lost to a replay**, as long as the file has not as many
bytes as that event was to have: the replay gives what was whole before, and says that the log is torn. -/
theorem loses_what_is_appended {s t : State} {acts more : List Act}
    (hrun : Machine.run step start acts = some s) (hopen : Machine.Each step AppendsWhole start acts)
    (hmore : Machine.run step s more = some t) (hkeep : ∀ act ∈ more, act ≠ .openLog .write) :
    let events := recorded (Machine.transitions step start acts) ++ s.kept
    (written events).length + headerLen ≤ s.file.length →
    (∀ event ∈ s.events[s.kept.length]?, t.file.length < (written (events ++ [event])).length) →
    ∀ cuts, Cut.failed ∉ cuts →
    ∃ turns u, Loop.after (logReader engine subscriptions none) turns (logStart ⟨t.file, cuts⟩) =
        (u, some .tornLog) ∧
      u.heard.delivered = heardOf engine subscriptions events ∧
      u.heard.counters.received = events.length ∧ u.heard.counters.discarded = 1 := by
  intro events hhead hlacks cuts hcuts
  have hkept := kept_of_run hrun hopen
  have hsplit : written events = s.before ++ written s.kept := by rw [written_append, hkept.before]
  have hlong : (written s.kept).length + headerLen ≤ s.client.writer.file.file.length := by
    rw [hsplit, State.file, List.length_append, List.length_append] at hhead
    omega
  -- The file of the client is its whole events, and a part of the one behind them.
  have hclient : s.client.writer.file.file <+: written s.events := by
    rw [State.events, written_append]
    exact hkept.written.file_isPrefix
  obtain ⟨event, rest, hevents, part, hpart, hfile, hne⟩ := exists_part hclient rfl fun heq => by
    have hlen := congrArg List.length heq
    change _ = (written s.kept).length at hlen
    have h28 : headerLen = 28 := rfl
    omega
  change s.events = s.kept ++ event :: rest at hevents
  change s.client.writer.file.file = written s.kept ++ part at hfile
  have hshort := hlacks event (by rw [hevents]; simp)
  have hencodes : Encode (recorded (Machine.transitions step start acts) ++ s.events) := fun other hother =>
    (List.mem_append.1 hother).elim (hkept.encode other) (hkept.written.encodes other)
  have hbefore : Encode events := fun other hother => hencodes other (by
    rw [hevents, ← List.append_assoc]
    exact List.mem_append_left _ hother)
  obtain ⟨entries, hbytes, hmap⟩ := exists_entries hbefore
  obtain ⟨bytes, hencode⟩ := hencodes event (by rw [hevents]; simp)
  obtain ⟨e, -, rfl⟩ := exists_entry_of_encode hencode
  have hone : written [event] = e.bytes := written_singleton hencode
  rw [hone] at hpart
  obtain ⟨appended, happended⟩ := file_of_run hmore hkeep
  have htail : t.file = bytesOf entries ++ (part ++ appended) := by
    rw [← happended, State.file, hfile, hbytes, hsplit]
    simp only [List.append_assoc]
  have hparts : headerLen ≤ part.length := by
    rw [hfile, List.length_append] at hlong
    omega
  have hfew : (part ++ appended).length < e.bytes.length := by
    rw [htail, written_append, hone, ← hbytes] at hshort
    simp only [List.length_append] at hshort ⊢
    omega
  have hsync : SyncAt (part ++ appended) 0 := by
    have h28 : headerLen = 28 := rfl
    obtain ⟨lacks, hlacks⟩ := hpart
    have hfirst := e.syncAt_bytes []
    rw [List.append_nil, ← hlacks] at hfirst
    exact (syncAt_append (by omega)).2 ((syncAt_append (by omega)).1 hfirst)
  obtain ⟨turns, u, hend, hheard⟩ := exists_end_of_tail engine subscriptions entries
    (by simp [hne] : part ++ appended ≠ []) (fun _ => hsync)
    (fun l hl => look_torn hpart hparts hl (hl.length_le.trans_lt hfew)) hcuts
  refine ⟨turns, u, htail ▸ hend, ?_⟩
  rw [hheard, foldEntries_eq, wanted_none, filterMap_event hmap, length_of_event hmap,
    countP_isNone_of_event hmap]
  simp [onLost, Counters.zero, heardOf]

/-- A third client appends a whole event behind that part. -/
theorem loses_what_is_appended_of_tornBehindTwo :
    ∃ s t turns u, Machine.run step start tornBehindTwo = some s ∧
      Machine.run step s [.openLog .append, .thread (.publish 0 ⟨"b", []⟩ (some 7)),
        .thread (.write 0 9 (.ok 29))] = some t ∧ t.kept = [⟨0, 7, ⟨"b", []⟩⟩] ∧
      Loop.after (logReader noPatterns ⟨[.name "a", .name "b"]⟩ none) turns (logStart ⟨t.file, []⟩) =
        (u, some .tornLog) ∧
      u.heard.delivered = [⟨⟨"a", [1]⟩, 5, 0⟩, ⟨⟨"b", [2]⟩, 6, 0⟩] := by
  let more : List Act := [.openLog .append, .thread (.publish 0 ⟨"b", []⟩ (some 7)),
    .thread (.write 0 9 (.ok 29))]
  have hend : (Machine.run step start tornBehindTwo).bind (fun s => (Machine.run step s more).map
      fun t => (t.kept, s.kept, s.file.length, s.events[s.kept.length]?, t.file.length)) =
      some ([⟨0, 7, ⟨"b", []⟩⟩], [⟨0, 6, ⟨"b", [2]⟩⟩], 88,
        some ⟨1, 9, ⟨"a", List.replicate 40 3⟩⟩, 117) := by decide +kernel
  obtain ⟨s, hrun, hs⟩ := Option.bind_eq_some_iff.1 hend
  obtain ⟨t, hmore, ht⟩ := Option.map_eq_some_iff.1 hs
  simp only [Prod.mk.injEq] at ht
  obtain ⟨hadded, hkept, hfile, hevent, hlength⟩ := ht
  obtain ⟨turns, u, hafter, hdelivered, -, -⟩ := loses_what_is_appended noPatterns
    ⟨[.name "a", .name "b"]⟩ hrun (by decide +kernel) hmore (by decide)
    (by rw [hkept, hfile]; decide +kernel)
    (by rw [hkept] at hevent; rw [hkept, hevent, hlength]; decide +kernel) [] (by decide)
  refine ⟨s, t, turns, u, hrun, hmore, hadded, hafter, ?_⟩
  rw [hdelivered, hkept]
  decide +kernel

end LcmBus.Recorded
