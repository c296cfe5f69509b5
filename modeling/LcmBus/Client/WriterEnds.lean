import LcmBus.Client.Writer

/-!
# The end of a writer

Where the loop of `tcpq_writer` ends with its outbox, and where it does not.

* `Ending`: the flag is cleared, or the thread is out of its loop, or it holds a frame it can no
  longer finish;
* `Link.rank` and `Linked.step_rank`: on a closed outbox each step of such a thread brings it nearer
  to its end, and `Linked.exists_step` gives it the next one;
* `Linked.exists_spins`: on a closed outbox every other thread goes round as often as one likes.
-/

namespace LcmBus.Relay

open Outbox

/-- The frame in hand cannot be finished: a write of it failed, or the socket is shut with bytes of
it left. -/
def Loop.torn (shutdown : Bool) : Loop → Bool
  | .finishing went => !went
  | .sending rest => shutdown && !rest.isEmpty
  | .writing _ => shutdown
  | _ => false

/-- The most steps the thread has left, where it is to end. -/
def Loop.rank (shutdown : Bool) : Loop → ℕ
  | .writing _ => if shutdown then 5 else 7
  | .sending _ => 6
  | .taking | .finishing _ => 4
  | .top => 3
  | .leaving => 2
  | .abandoning => 1
  | .gone => 0

namespace Link

variable {l t : Link} {running : Bool}

def rank (l : Link) : ℕ := l.loop.rank l.shutdown

theorem rank_le (l : Link) : l.rank ≤ 7 := by
  unfold rank Loop.rank
  split <;> first | omega | (split <;> omega)

/-- The thread is told to end, or it is on its way out. -/
def Ending (running : Bool) (l : Link) : Prop :=
  running = false ∨ l.loop.left = true ∨ l.loop.torn l.shutdown = true

theorem Ending.hangUp (h : Ending running l) : Ending running l.hangUp := by
  rcases h with h | h | h
  · exact .inl h
  · exact .inr (.inl h)
  · refine .inr (.inr ?_)
    cases hloop : l.loop <;> simp_all [Loop.torn, Link.hangUp]

theorem rank_hangUp (l : Link) : l.hangUp.rank ≤ l.rank := by
  unfold rank Link.hangUp
  cases l.loop <;> simp [Loop.rank]
  split <;> omega

/-- **Each step of a thread that is to end, on a closed outbox, brings it nearer to its end.** -/
theorem Linked.step_rank (h : Linked l) (hclosed : l.Closed) (hending : Ending running l) {act : Act}
    (hwriter : act.ofWriter) (hstep : Link.step running l act = some t) :
    t.rank < l.rank ∧ Ending running t := by
  cases act with
  | call act => cases hwriter
  | look =>
    simp only [Link.step] at hstep
    split at hstep <;> cases hstep
    rename_i hloop
    have hstopped : running = false := by simpa [Ending, hloop, Loop.left, Loop.torn] using hending
    simp [hstopped, rank, hloop, Loop.rank, Ending]
  | take =>
    simp only [Link.step] at hstep
    split at hstep
    · rename_i hloop
      have hstopped : running = false := by simpa [Ending, hloop, Loop.left, Loop.torn] using hending
      obtain ⟨outbox, houtbox, rfl⟩ := Option.map_eq_some_iff.1 hstep
      -- There is no frame to find on a closed outbox.
      obtain ⟨hidle, rfl | ⟨lane, frame, -, -, -, -, hlines⟩⟩ := step_take houtbox
      · refine ⟨?_, .inl hstopped⟩
        simp [rank, hidle, hloop, Loop.rank]
      · exact absurd (h.counted.closed hclosed) hlines
    · cases hstep
  | check =>
    simp only [Link.step] at hstep
    split at hstep <;> cases hstep
    rename_i rest hloop
    obtain hstopped | ⟨hrest, hsocket⟩ : running = false ∨ rest ≠ [] ∧ l.shutdown = true := by
      simpa [Ending, hloop, Loop.left, Loop.torn, and_comm] using hending
    · refine ⟨?_, .inl hstopped⟩
      simp only [rank, hloop, hstopped, Bool.false_eq_true, if_false]
      split <;> simp [Loop.rank]
    · cases running <;> simp [rank, hloop, hrest, hsocket, Loop.rank, Ending, Loop.torn]
  | write wrote stalled =>
    obtain ⟨rest, hloop, loop, rfl | ⟨hsocket, rest', rfl⟩, wire, rfl⟩ := write_eq_some hstep
    · refine ⟨?_, .inr (.inr rfl)⟩
      simp only [rank, hloop, Loop.rank]
      split <;> omega
    · have hstopped : running = false := by
        simpa [Ending, hloop, Loop.left, Loop.torn, hsocket] using hending
      refine ⟨?_, .inl hstopped⟩
      simp [rank, hloop, hsocket, Loop.rank]
  | finish =>
    simp only [Link.step] at hstep
    split at hstep
    · rename_i went hloop
      obtain ⟨outbox, -, rfl⟩ := Option.map_eq_some_iff.1 hstep
      cases went
      · exact ⟨by simp [rank, hloop, Loop.rank], .inr (.inl rfl)⟩
      · have hstopped : running = false := by
          simpa [Ending, hloop, Loop.left, Loop.torn] using hending
        exact ⟨by simp [rank, hloop, Loop.rank], .inl hstopped⟩
    · cases hstep
  | exitShut =>
    simp only [Link.step] at hstep
    split at hstep
    · rename_i hloop
      obtain ⟨outbox, -, rfl⟩ := Option.map_eq_some_iff.1 hstep
      exact ⟨by simp [rank, hloop, Loop.rank], .inr (.inl rfl)⟩
    · cases hstep
  | exitAbandon =>
    simp only [Link.step] at hstep
    split at hstep
    · rename_i hloop
      obtain ⟨outbox, -, rfl⟩ := Option.map_eq_some_iff.1 hstep
      exact ⟨by simp [rank, hloop, Loop.rank], .inr (.inl rfl)⟩
    · cases hstep
  | panic =>
    simp only [Link.step] at hstep
    split_ifs at hstep with hleft
    cases hstep
    refine ⟨?_, .inr (.inl rfl)⟩
    unfold rank
    cases hloop : l.loop <;> simp_all [Loop.rank, Loop.left]
    split <;> omega

/-- A step of a caller says nothing of the thread. -/
theorem caller_step {act : Act} (hwriter : act.ofWriter = false)
    (hstep : Link.step running l act = some t) :
    t.rank = l.rank ∧ (Ending running l → Ending running t) := by
  cases act with
  | call act =>
    simp only [Link.step] at hstep
    split_ifs at hstep
    obtain ⟨outbox, -, rfl⟩ := Option.map_eq_some_iff.1 hstep
    exact ⟨rfl, fun h => h⟩
  | look | take | check | write | finish | exitShut | exitAbandon | panic => cases hwriter

/-- No step on a closed outbox takes a thread that is to end further from its end, and each one of
its own takes it nearer. -/
theorem Linked.rank_step (h : Linked l) (hclosed : l.Closed) (hending : Ending running l) {act : Act}
    (hstep : Link.step running l act = some t) :
    t.rank ≤ l.rank ∧ (act.ofWriter = true → t.rank < l.rank) ∧ Ending running t := by
  cases hwriter : act.ofWriter with
  | false =>
    obtain ⟨hrank, hstill⟩ := caller_step hwriter hstep
    exact ⟨hrank.le, by simp, hstill hending⟩
  | true =>
    obtain ⟨hrank, hstill⟩ := h.step_rank hclosed hending hwriter hstep
    exact ⟨hrank.le, fun _ => hrank, hstill⟩

theorem exists_step_take {s : Outbox.State} (hidle : s.writer = .idle) :
    ∃ t, Outbox.step s .take = some t := by
  rw [Outbox.step, hidle]
  rcases s.queue.take with ⟨_ | ⟨lane, frame⟩, queue⟩ <;> exact ⟨_, rfl⟩

/-- A thread that is not gone has a step to take, whatever the outbox and the socket do. -/
theorem Linked.exists_step (h : Linked l) (hgone : l.loop ≠ .gone) (running : Bool) :
    ∃ act t, act.ofWriter = true ∧ Link.step running l act = some t := by
  have hagrees := h.agrees
  cases hloop : l.loop with
  | top => exact ⟨.look, _, rfl, by simp [Link.step, hloop]; rfl⟩
  | sending rest => exact ⟨.check, _, rfl, by simp [Link.step, hloop]; rfl⟩
  | writing rest => exact ⟨.write .failed false, _, rfl, by simp [Link.step, hloop]; rfl⟩
  | taking =>
    rw [hloop] at hagrees
    obtain ⟨outbox, houtbox⟩ := exists_step_take hagrees
    exact ⟨.take, _, rfl, by simp [Link.step, hloop, houtbox]; rfl⟩
  | finishing went =>
    rw [hloop] at hagrees
    obtain ⟨lane, frame, hholding⟩ := hagrees
    exact ⟨.finish, _, rfl, by simp [Link.step, hloop, Outbox.step, hholding]; rfl⟩
  | leaving =>
    rw [hloop] at hagrees
    obtain ⟨outbox, houtbox⟩ : ∃ outbox, Outbox.step l.outbox .exitShut = some outbox := by
      simp only [Outbox.step]
      split
      · exact absurd ‹_› hagrees.1
      · exact absurd ‹_› hagrees.2
      · exact ⟨_, rfl⟩
    exact ⟨.exitShut, _, rfl, by simp [Link.step, hloop, houtbox]; rfl⟩
  | abandoning =>
    rw [hloop] at hagrees
    have hleaving : l.outbox.writer = .leaving := hagrees
    exact ⟨.exitAbandon, _, rfl, by simp [Link.step, hloop, Outbox.step, hleaving]; rfl⟩
  | gone => exact absurd hloop hgone

/-! ### A loop that does not end -/

/-- On a closed outbox a take finds nothing, and the thread is back at the head of its loop. -/
theorem Linked.take_of_closed (h : Linked l) (hclosed : l.Closed) (htaking : l.loop = .taking) :
    Link.step running l .take = some { l with loop := .top } := by
  have hidle : l.outbox.writer = .idle := by
    have := h.agrees
    rwa [htaking] at this
  have htake : Outbox.step l.outbox .take = some l.outbox := by
    obtain ⟨outbox, houtbox⟩ := exists_step_take hidle
    obtain ⟨-, rfl | ⟨lane, frame, -, -, -, -, hlines⟩⟩ := step_take houtbox
    · exact houtbox
    · exact absurd (h.counted.closed hclosed) hlines
  simp [Link.step, htaking, htake, hidle]

/-- A frame that went whole is done with, and the thread is at the head of its loop. -/
theorem Linked.finish_of_went (h : Linked l) (hloop : l.loop = .finishing true) :
    ∃ t, Link.step running l .finish = some t ∧ t.loop = .top := by
  have hagrees := h.agrees
  rw [hloop] at hagrees
  obtain ⟨lane, frame, hholding⟩ := hagrees
  exact ⟨_, by simp [Link.step, hloop, Outbox.step, hholding]; rfl, rfl⟩

theorem Linked.run_of_sent (h : Linked l) (hloop : l.loop = .sending []) :
    ∃ t, Machine.run (Link.step running) l [.check, .finish] = some t ∧ t.loop = .top := by
  have hcheck : Link.step running l .check = some { l with loop := .finishing true } := by
    simp [Link.step, hloop]
  obtain ⟨t, hfinish, htop⟩ := (h.step hcheck).finish_of_went rfl
  exact ⟨t, Machine.run_cons_eq_some.2 ⟨_, hcheck, Machine.run_cons_eq_some.2 ⟨t, hfinish, rfl⟩⟩, htop⟩

/-- A socket that is not shut can take the rest of the frame in one `write`. -/
theorem Linked.run_of_writing (h : Linked l) {rest : Bytes} (hloop : l.loop = .writing rest)
    (hsocket : l.shutdown = false) : ∃ wrote t,
      Machine.run (Link.step running) l [.write wrote false, .check, .finish] = some t ∧
        t.loop = .top := by
  obtain ⟨wrote, u, hwrite, hsent⟩ : ∃ wrote u,
      Link.step running l (.write wrote false) = some u ∧ u.loop = .sending [] := by
    cases rest with
    | nil => exact ⟨.timedOut, _, by simp [Link.step, hloop, hsocket, afterWrite]; rfl, rfl⟩
    | cons byte rest =>
      exact ⟨.bytes (rest.length + 1), _, by simp [Link.step, hloop, hsocket, afterWrite]; rfl, rfl⟩
  obtain ⟨t, hrun, htop⟩ := (h.step hwrite).run_of_sent hsent
  exact ⟨wrote, t, Machine.run_cons_eq_some.2 ⟨u, hwrite, hrun⟩, htop⟩

/-- A thread that is not to end can come to the head of its loop. -/
theorem Linked.exists_top (h : Linked l) (hclosed : l.Closed) (hending : ¬ Ending true l) :
    ∃ acts t, (∀ act ∈ acts, act.ofWriter = true) ∧ Machine.run (Link.step true) l acts = some t ∧
      t.loop = .top := by
  cases hloop : l.loop with
  | top => exact ⟨[], l, by simp, rfl, hloop⟩
  | taking =>
    exact ⟨[.take], _, by simp [Act.ofWriter],
      Machine.run_cons_eq_some.2 ⟨_, h.take_of_closed hclosed hloop, rfl⟩, rfl⟩
  | finishing went =>
    cases went with
    | false => exact absurd (.inr (.inr (by rw [hloop]; rfl))) hending
    | true =>
      obtain ⟨t, ht, htop⟩ := h.finish_of_went hloop
      exact ⟨[.finish], t, by simp [Act.ofWriter], Machine.run_cons_eq_some.2 ⟨t, ht, rfl⟩, htop⟩
  | sending rest =>
    cases rest with
    | nil =>
      obtain ⟨t, ht, htop⟩ := h.run_of_sent hloop
      exact ⟨_, t, by simp [Act.ofWriter], ht, htop⟩
    | cons byte rest =>
      have hsocket : l.shutdown = false := by
        simpa [Ending, hloop, Loop.left, Loop.torn] using hending
      have hcheck : Link.step true l .check = some { l with loop := .writing (byte :: rest) } := by
        simp [Link.step, hloop]
      obtain ⟨wrote, t, ht, htop⟩ := (h.step hcheck).run_of_writing rfl hsocket
      exact ⟨.check :: _, t, by simp [Act.ofWriter], Machine.run_cons_eq_some.2 ⟨_, hcheck, ht⟩, htop⟩
  | writing rest =>
    have hsocket : l.shutdown = false := by
      simpa [Ending, hloop, Loop.left, Loop.torn] using hending
    obtain ⟨wrote, t, ht, htop⟩ := h.run_of_writing hloop hsocket
    exact ⟨_, t, by simp [Act.ofWriter], ht, htop⟩
  | leaving | abandoning | gone => exact absurd (.inr (.inl (by rw [hloop]; rfl))) hending

/-- From the head of the loop, on a closed outbox with the flag set, `n` rounds lead back to it. -/
theorem Linked.spins (h : Linked l) (hclosed : l.Closed) (htop : l.loop = .top) (n : ℕ) :
    Machine.run (Link.step true) l (List.replicate n [Act.look, Act.take]).flatten = some l := by
  have hlook : Link.step true l .look = some { l with loop := .taking } := by simp [Link.step, htop]
  have htake : Link.step true { l with loop := .taking } .take = some l := by
    rw [(h.step hlook).take_of_closed hclosed rfl, ← htop]
  induction n with
  | zero => rfl
  | succ n ih =>
    rw [List.replicate_succ, List.flatten_cons, Machine.run_append_eq_some]
    exact ⟨l, by simp [Machine.run_cons, hlook, htake], ih⟩

/-- **On a closed outbox a thread that is not to end goes round as often as one likes.** -/
theorem Linked.exists_spins (h : Linked l) (hclosed : l.Closed) (hending : ¬ Ending true l) (n : ℕ) :
    ∃ acts t, (∀ act ∈ acts, act.ofWriter = true) ∧ Machine.run (Link.step true) l acts = some t ∧
      n ≤ acts.count .look := by
  obtain ⟨acts, top, hacts, hrun, htop⟩ := h.exists_top hclosed hending
  obtain ⟨htopLinked, htopClosed⟩ := Machine.run_invariant
    (P := fun m => Linked m ∧ m.Closed)
    (fun _ _ _ hm hstep => ⟨hm.1.step hstep, hm.2.step hstep⟩) ⟨h, hclosed⟩ hrun
  refine ⟨acts ++ (List.replicate n [Act.look, Act.take]).flatten, top, ?_,
    Machine.run_append_eq_some.2 ⟨top, hrun, htopLinked.spins htopClosed htop n⟩, ?_⟩
  · intro act hact
    rcases List.mem_append.1 hact with hact | hact
    · exact hacts act hact
    · obtain ⟨round, hround, hact⟩ := List.mem_flatten.1 hact
      rw [List.eq_of_mem_replicate hround] at hact
      fin_cases hact <;> rfl
  · rw [List.count_append, List.count_flatten, List.map_replicate, List.sum_replicate]
    simp

end Link

end LcmBus.Relay
