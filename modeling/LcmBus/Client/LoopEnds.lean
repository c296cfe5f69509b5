import LcmBus.Client.Dial
import LcmBus.Client.Serve

/-!
# Whether a writer ends with its outbox

`tcpq_writer` watches one flag, which on the dialling side is that of its own client, and on the
serving side that of the whole relay.

* `step_known`: what one step of a served relay does to its peers;
* `Settled.count_writer_le`: a writer that is to end takes a few steps once its outbox is closed;
* `Sound.exists_spins`: any other one goes round as often as one likes;
* `writer_ends`: the two sides of `tcpq_writer` in one theorem, and `spins_behind_drop`: the peer of
  a running relay whose writer goes round for ever behind `drop_peer`.
-/

namespace LcmBus.Serve

open Relay

/-- The step is one of the writer of a peer. -/
def Act.ofWriter (id : ℕ) : Act → Bool
  | .peer i act => i == id && act.ofWriter
  | _ => false

/-- What a step does to a peer: one step of its link, or what another thread does to it. -/
def Moved (running : Bool) (act : Act) (id : ℕ) (p q : Peer) : Prop :=
  (∃ a, act = .peer id a ∧ p.linkStep running a = some q) ∨
  (∀ i a, act ≠ .peer i a) ∧ (p.writing = true → q.writing = true) ∧
    (q.link = p.link ∨ q.link = p.link.shut ∨ q.link = p.link.hangUp)

variable {s t : State} {id : ℕ} {p q : Peer}

/-- A step changes one peer, or it is the `accept` that makes one, or it changes none. -/
def Stepped (s : State) (act : Act) (t : State) : Prop :=
  (t.running = s.running ∨ t.running = false) ∧
  ((t.known = s.known ∧ t.nextId = s.nextId ∧ ∀ i a, act ≠ .peer i a) ∨
    (act = .accept ∧ t.known = Function.update s.known s.nextId (some .new) ∧
      t.nextId = s.nextId + 1) ∨
    ∃ id p q, s.known id = some p ∧ t.known = Function.update s.known id (some q) ∧
      t.nextId = s.nextId ∧ Moved s.running act id p q)

theorem stepped_of_modify {act : Act} {u : State} {change : Peer → Option Peer}
    (hmodify : u.modify id change = some t) (hknown : u.known = s.known) (hnext : u.nextId = s.nextId)
    (hrunning : u.running = s.running)
    (hchange : ∀ p q, change p = some q → Moved s.running act id p q) : Stepped s act t := by
  obtain ⟨p, q, hp, hq, rfl⟩ := State.modify_eq_some.1 hmodify
  exact ⟨.inl hrunning, .inr (.inr ⟨id, p, q, hknown ▸ hp, by rw [hknown], hnext, hchange p q hq⟩)⟩

theorem moved_of_readerStep {running : Bool} {act : Act} {start : Reader} {change : Peer → Peer}
    (hact : ∀ i a, act ≠ .peer i a) (hwriting : ∀ p, (change p).writing = p.writing)
    (hlink : ∀ p, (change p).link = p.link ∨ (change p).link = p.link.shut ∨
      (change p).link = p.link.hangUp) (hq : p.readerStep start change = some q) :
    Moved running act id p q := by
  obtain ⟨-, rfl⟩ := Peer.readerStep_eq_some.1 hq
  exact .inr ⟨hact, fun hw => (hwriting p).trans hw, hlink p⟩

/-- What one step of any thread does to the peers. -/
theorem step_known {act : Act} (hstep : step s act = some t) : Stepped s act t := by
  cases act with
  | poll | nothing | listenerGone | fail =>
    simp only [step] at hstep
    split at hstep <;> cases hstep <;> exact ⟨.inl rfl, .inl ⟨rfl, rfl, by simp⟩⟩
  | stop => cases hstep; exact ⟨.inr rfl, .inl ⟨rfl, rfl, by simp⟩⟩
  | takePeers =>
    simp only [step] at hstep
    split at hstep <;> cases hstep
    exact ⟨.inl rfl, .inl ⟨rfl, rfl, by simp⟩⟩
  | accept =>
    simp only [step] at hstep
    split at hstep <;> cases hstep
    exact ⟨.inl rfl, .inr (.inl ⟨rfl, rfl, rfl⟩)⟩
  | spawnWriter | spawnReader | push | finish =>
    simp only [step] at hstep
    split at hstep
    · exact stepped_of_modify hstep rfl rfl rfl (by
        rintro p q ⟨⟩
        exact .inr ⟨by simp, by simp, .inl rfl⟩)
    · cases hstep
  | peer id a => exact stepped_of_modify hstep rfl rfl rfl fun p q hq => .inl ⟨a, rfl, hq⟩
  | readerEnds | readerPanics | dropShut | dropHangUp =>
    exact stepped_of_modify hstep rfl rfl rfl fun p q =>
      moved_of_readerStep (by simp) (fun _ => rfl) (by simp)
  | drop id =>
    simp only [step] at hstep
    split at hstep <;> exact stepped_of_modify hstep rfl rfl rfl fun p q =>
      moved_of_readerStep (by simp) (fun _ => rfl) (by simp)
  | shutPeer id | shutHangUp id =>
    simp only [step] at hstep
    split at hstep
    · exact stepped_of_modify hstep rfl rfl rfl (by
        rintro p q ⟨⟩
        exact .inr ⟨by simp, by simp, by simp⟩)
    · cases hstep

/-- What holds of a served relay in every state. -/
structure Sound (s : State) : Prop where
  fresh : ∀ id p, s.known id = some p → id < s.nextId
  linked : ∀ id p, s.known id = some p → p.link.Linked

theorem sound_new : Sound .new := ⟨by simp [State.new], by simp [State.new]⟩

theorem Moved.linked {running : Bool} {act : Act} (h : Moved running act id p q)
    (hp : p.link.Linked) : q.link.Linked := by
  rcases h with ⟨a, -, hq⟩ | ⟨-, -, hq | hq | hq⟩
  · obtain ⟨-, link, hlink, rfl⟩ := Peer.linkStep_eq_some.1 hq
    exact hp.step hlink
  · exact hq ▸ hp
  · exact hq ▸ hp.shut
  · exact hq ▸ hp.hangUp

theorem Sound.step {act : Act} (h : Sound s) (hstep : step s act = some t) : Sound t := by
  obtain ⟨-, ⟨hknown, hnext, -⟩ | ⟨-, hknown, hnext⟩ | ⟨id, p, q, hp, hknown, hnext, hmoved⟩⟩ :=
    step_known hstep
  · exact ⟨by rw [hknown, hnext]; exact h.fresh, by rw [hknown]; exact h.linked⟩
  · constructor <;> intro i r hr <;> rw [hknown] at hr
    · rcases eq_or_ne i s.nextId with rfl | hi
      · omega
      · have := h.fresh i r (by simpa [hi] using hr)
        omega
    · rcases eq_or_ne i s.nextId with rfl | hi
      · obtain rfl : Peer.new = r := by simpa using hr
        exact Link.linked_new
      · exact h.linked i r (by simpa [hi] using hr)
  · constructor <;> intro i r hr <;> rw [hknown] at hr
    · rw [hnext]
      rcases eq_or_ne i id with rfl | hi
      · exact h.fresh i p hp
      · exact h.fresh i r (by simpa [hi] using hr)
    · rcases eq_or_ne i id with rfl | hi
      · obtain rfl : q = r := by simpa using hr
        exact hmoved.linked (h.linked i p hp)
      · exact h.linked i r (by simpa [hi] using hr)

theorem sound_of_run {acts : List Act} (hrun : Machine.run step .new acts = some s) : Sound s :=
  Machine.run_invariant (fun _ _ _ h hstep => Sound.step h hstep) sound_new hrun

/-! ### A writer that is to end -/

/-- The writer of a peer is to end, on a closed outbox. -/
def Settled (s : State) (id : ℕ) (p : Peer) : Prop :=
  s.known id = some p ∧ p.writing = true ∧ p.link.Closed ∧ Link.Ending s.running p.link

/-- The most steps that are left of it. -/
def rankOf (s : State) (id : ℕ) : ℕ := (s.known id).elim 0 fun p => p.link.rank

theorem Settled.rankOf (h : Settled s id p) : rankOf s id = p.link.rank := by
  simp [Serve.rankOf, h.1]

theorem Ending.of_running {running running' : Bool} {l : Link} (h : Link.Ending running l)
    (hrunning : running' = running ∨ running' = false) : Link.Ending running' l := by
  rcases hrunning with rfl | rfl
  · exact h
  · exact .inl rfl

/-- No step takes such a writer further from its end, and each one of its own takes it nearer. -/
theorem Settled.step {act : Act} (h : Settled s id p) (hsound : Sound s)
    (hstep : step s act = some t) : ∃ q, Settled t id q ∧ q.link.rank ≤ p.link.rank ∧
      (act.ofWriter id = true → q.link.rank < p.link.rank) := by
  obtain ⟨hp, hwriting, hclosed, hending⟩ := h
  have hlinked := hsound.linked id p hp
  obtain ⟨hrunning, ⟨hknown, -, hact⟩ | ⟨rfl, hknown, -⟩ | ⟨i, r, q, hr, hknown, -, hmoved⟩⟩ :=
    step_known hstep
  · refine ⟨p, ⟨by rw [hknown, hp], hwriting, hclosed, Ending.of_running hending hrunning⟩, le_rfl,
      fun hwriter => ?_⟩
    cases act with
    | peer i a => exact absurd rfl (hact i a)
    | _ => cases hwriter
  · have hne : id ≠ s.nextId := (hsound.fresh id p hp).ne
    exact ⟨p, ⟨by simp [hknown, hne, hp], hwriting, hclosed, Ending.of_running hending hrunning⟩, le_rfl,
      fun hwriter => by cases hwriter⟩
  · rcases eq_or_ne id i with rfl | hne
    · obtain rfl : p = r := Option.some.inj (hp.symm.trans hr)
      have hq : t.known id = some q := by simp [hknown]
      rcases hmoved with ⟨a, rfl, hlink⟩ | ⟨hact, hwrites, hlink⟩
      · obtain ⟨-, link, hstep', rfl⟩ := Peer.linkStep_eq_some.1 hlink
        obtain ⟨hle, hlt, hstill⟩ := hlinked.rank_step hclosed hending hstep'
        exact ⟨_, ⟨hq, hwriting, hclosed.step hstep', Ending.of_running hstill hrunning⟩, hle,
          fun hwriter => hlt (by simpa [Act.ofWriter] using hwriter)⟩
      · have hother : act.ofWriter id = true → q.link.rank < p.link.rank := fun hwriter => by
          cases act with
          | peer i a => exact absurd rfl (hact i a)
          | _ => cases hwriter
        rcases hlink with hlink | hlink | hlink
        · exact ⟨q, ⟨hq, hwrites hwriting, hlink ▸ hclosed, hlink ▸ Ending.of_running hending hrunning⟩,
            (congrArg Link.rank hlink).le, hother⟩
        · exact ⟨q, ⟨hq, hwrites hwriting, hlink ▸ Link.closed_shut, hlink ▸ Ending.of_running hending hrunning⟩,
            (congrArg Link.rank hlink).le, hother⟩
        · exact ⟨q, ⟨hq, hwrites hwriting, hlink ▸ hclosed, hlink ▸ (Ending.of_running hending hrunning).hangUp⟩,
            hlink ▸ p.link.rank_hangUp, hother⟩
    · refine ⟨p, ⟨by simp [hknown, hne, hp], hwriting, hclosed, Ending.of_running hending hrunning⟩, le_rfl,
        fun hwriter => ?_⟩
      rcases hmoved with ⟨a, rfl, -⟩ | ⟨hact, -⟩
      · simp [Act.ofWriter, hne.symm] at hwriter
      · cases act with
        | peer i a => exact absurd rfl (hact i a)
        | _ => cases hwriter

/-- **A writer that is to end takes no more than seven steps once its outbox is closed.** -/
theorem Settled.count_writer_le {acts : List Act} (h : Settled s id p) (hsound : Sound s)
    (hrun : Machine.run Serve.step s acts = some t) :
    acts.countP (Act.ofWriter id) ≤ 7 ∧ ∃ q, Settled t id q := by
  have hkeeps : ∀ s act t, (Sound s ∧ ∃ p, Settled s id p) → Serve.step s act = some t →
      (Sound t ∧ ∃ p, Settled t id p) ∧ Serve.rankOf t id ≤ Serve.rankOf s id ∧
        (act.ofWriter id = true → Serve.rankOf t id < Serve.rankOf s id) := by
    rintro s act t ⟨hsound, p, hp⟩ hstep
    obtain ⟨q, hq, hle, hlt⟩ := hp.step hsound hstep
    rw [hp.rankOf, hq.rankOf]
    exact ⟨⟨hsound.step hstep, q, hq⟩, hle, hlt⟩
  have hcount := Machine.run_count_add_le hkeeps ⟨hsound, p, h⟩ hrun
  have hle := p.link.rank_le
  rw [h.rankOf] at hcount
  exact ⟨by omega, (Machine.run_invariant (fun s act t hs hstep => (hkeeps s act t hs hstep).1)
    ⟨hsound, p, h⟩ hrun).2⟩

/-! ### A writer that goes round -/

/-- The steps of a writer alone are steps of the relay. -/
theorem run_peer {acts : List Link.Act} {link : Link} (hp : s.known id = some p)
    (hwriting : p.writing = true) (hacts : ∀ a ∈ acts, a.ofWriter = true)
    (hrun : Machine.run (Link.step s.running) p.link acts = some link) :
    ∃ t, Machine.run step s (acts.map (.peer id)) = some t := by
  induction acts generalizing s p with
  | nil => exact ⟨s, rfl⟩
  | cons a acts ih =>
    obtain ⟨m, hm, hrest⟩ := Machine.run_cons_eq_some.1 hrun
    have hallows : p.allows a = true := by
      simpa [Peer.allows, hacts a List.mem_cons_self] using hwriting
    have hstep : step s (.peer id a) = some { s with
        known := Function.update s.known id (some { p with link := m }) } :=
      State.modify_eq_some.2 ⟨p, _, hp, Peer.linkStep_eq_some.2 ⟨hallows, m, hm, rfl⟩, rfl⟩
    obtain ⟨t, ht⟩ := ih (s := { s with
        known := Function.update s.known id (some { p with link := m }) }) (p := { p with link := m })
      (by simp) hwriting (fun b hb => hacts b (List.mem_cons_of_mem a hb)) hrest
    exact ⟨t, Machine.run_cons_eq_some.2 ⟨_, hstep, ht⟩⟩

/-- **A writer that is not to end goes round its closed outbox as often as one likes.** -/
theorem Sound.exists_spins (h : Sound s) (hp : s.known id = some p) (hwriting : p.writing = true)
    (hclosed : p.link.Closed) (hending : ¬ Link.Ending s.running p.link) (n : ℕ) :
    ∃ after t, Machine.run Serve.step s after = some t ∧ n ≤ after.count (.peer id .look) := by
  have hrunning : s.running = true := by
    cases hr : s.running
    · exact absurd (.inl hr) hending
    · rfl
  obtain ⟨acts, link, hacts, hrun, hcount⟩ :=
    (h.linked id p hp).exists_spins hclosed (hrunning ▸ hending) n
  obtain ⟨t, ht⟩ := run_peer hp hwriting hacts (hrunning ▸ hrun)
  refine ⟨_, t, ht, ?_⟩
  rwa [List.count_map_of_injective _ _ fun a b hab => by simpa using hab]

/-! ### Both sides -/

/-- A writer that is not gone has a step to take. -/
theorem Sound.exists_step (h : Sound s) (hp : s.known id = some p) (hwriting : p.writing = true)
    (hgone : p.link.loop ≠ .gone) :
    ∃ act t, act.ofWriter id = true ∧ Serve.step s act = some t := by
  obtain ⟨a, link, ha, hlink⟩ := (h.linked id p hp).exists_step hgone s.running
  have hallows : p.allows a = true := by simpa [Peer.allows, ha] using hwriting
  exact ⟨.peer id a, _, by simp [Act.ofWriter, ha],
    State.modify_eq_some.2 ⟨p, _, hp, Peer.linkStep_eq_some.2 ⟨hallows, link, hlink, rfl⟩, rfl⟩⟩

end LcmBus.Serve

namespace LcmBus.Relay

/-- **The writer of a dialled client ends with its outbox, and that of a served relay exactly where
it is told to end**: `running` is cleared, or the thread is out of its loop, or it holds a frame that
it can no longer finish.  Once the outbox is closed such a writer takes no more than seven steps, and
until it is gone it has one to take; any other one goes round as often as one likes. -/
theorem writer_ends (dialled : List Dial.Act) (served : List Serve.Act) :
    (∀ s after t, Machine.run Dial.step .new dialled = some s → s.link.Closed →
      Machine.run Dial.step s after = some t → after.countP Dial.Act.ofWriter ≤ 7 ∧
        (t.link.loop ≠ .gone → ∃ act u, Dial.Act.ofWriter act = true ∧ Dial.step t act = some u)) ∧
    (∀ s id p, Machine.run Serve.step .new served = some s → s.known id = some p →
      p.writing = true → p.link.Closed →
      ((∃ n, ∀ after t, Machine.run Serve.step s after = some t →
          after.count (.peer id .look) ≤ n) ↔ Link.Ending s.running p.link) ∧
      (Link.Ending s.running p.link → ∀ after t, Machine.run Serve.step s after = some t →
        after.countP (Serve.Act.ofWriter id) ≤ 7 ∧ ∃ q, t.known id = some q ∧
          (q.link.loop ≠ .gone → ∃ act u, act.ofWriter id = true ∧ Serve.step t act = some u))) := by
  constructor
  · intro s after t hdialled hclosed hafter
    have hsound := Dial.sound_of_run hdialled
    refine ⟨Dial.count_writer_le hsound hclosed hafter, fun hgone => ?_⟩
    exact (Machine.run_invariant (fun _ _ _ h hstep => h.step hstep) hsound hafter).exists_step hgone
  · intro s id p hserved hp hwriting hclosed
    have hsound := Serve.sound_of_run hserved
    refine ⟨⟨fun ⟨n, hn⟩ => ?_, fun hending => ⟨7, fun after t hafter => ?_⟩⟩,
      fun hending after t hafter => ?_⟩
    · by_contra hending
      obtain ⟨after, t, hafter, hcount⟩ := hsound.exists_spins hp hwriting hclosed hending (n + 1)
      have := hn after t hafter
      omega
    · have hcount := (Serve.Settled.count_writer_le ⟨hp, hwriting, hclosed, hending⟩ hsound hafter).1
      refine le_trans (List.countP_mono_left fun act _ hact => ?_) hcount
      obtain rfl := eq_of_beq hact
      simp [Serve.Act.ofWriter, Link.Act.ofWriter]
    · obtain ⟨hcount, q, hq, hwriting', -⟩ :=
        Serve.Settled.count_writer_le ⟨hp, hwriting, hclosed, hending⟩ hsound hafter
      exact ⟨hcount, q, hq, (Machine.run_invariant (fun _ _ _ h hstep => h.step hstep) hsound
        hafter).exists_step hq hwriting'⟩

/-- A relay that is closed, and a client of it that leaves behind that. -/
def leftOfClosed : List Serve.Act :=
  [.poll, .accept, .spawnWriter, .spawnReader, .push, .finish, .stop, .readerEnds 0, .drop 0,
    .dropShut 0]

/-- The writer of that client, and the one of a dialled client that closes. -/
theorem writer_ends_of_close :
    (∃ s, Machine.run Dial.step .new [.close, .closeShut] = some s ∧ s.link.Closed ∧
      ∀ after t, Machine.run Dial.step s after = some t → after.countP Dial.Act.ofWriter ≤ 7) ∧
    (∃ s p, Machine.run Serve.step .new leftOfClosed = some s ∧ s.known 0 = some p ∧
      ∃ n, ∀ after t, Machine.run Serve.step s after = some t →
        after.count (.peer 0 .look) ≤ n) := by
  constructor
  · obtain ⟨s, hrun, hclosed⟩ : ∃ s, Machine.run Dial.step .new [.close, .closeShut] = some s ∧
        s.link.Closed := ⟨_, rfl, rfl⟩
    exact ⟨s, hrun, hclosed, fun after t hafter => ((writer_ends _ []).1 s after t hrun hclosed hafter).1⟩
  · obtain ⟨s, p, hrun, hp, hwriting, hrunning, hclosed⟩ : ∃ s p,
        Machine.run Serve.step .new leftOfClosed = some s ∧ s.known 0 = some p ∧
          p.writing = true ∧ s.running = false ∧ p.link.Closed :=
      ⟨_, _, rfl, rfl, rfl, rfl, rfl⟩
    exact ⟨s, p, hrun, hp, ((writer_ends [] _).2 s 0 p hrun hp hwriting hclosed).1.2 (.inl hrunning)⟩

/-- A client leaves a running relay.  `drop_peer` has shut the outbox and the stream, and the writer
goes round for ever. -/
theorem spins_behind_drop : ∃ s p, Machine.run Serve.step .new Serve.wholeLife = some s ∧
    s.known 0 = some p ∧ s.running = true ∧ p.reader = .gone ∧ p.link.Closed ∧
    ∀ n, ∃ after t, Machine.run Serve.step s after = some t ∧ n ≤ after.count (.peer 0 .look) := by
  obtain ⟨s, p, hrun, hp, hwriting, hrunning, hgone, hclosed, hloop⟩ : ∃ s p,
      Machine.run Serve.step .new Serve.wholeLife = some s ∧ s.known 0 = some p ∧
        p.writing = true ∧ s.running = true ∧ p.reader = .gone ∧ p.link.Closed ∧
        p.link.loop = .top :=
    ⟨_, _, rfl, rfl, rfl, rfl, rfl, rfl, rfl⟩
  have hending : ¬ Link.Ending s.running p.link := by
    simp [Link.Ending, hrunning, hloop, Loop.left, Loop.torn]
  exact ⟨s, p, hrun, hp, hrunning, hgone, hclosed, fun n =>
    (Serve.sound_of_run hrun).exists_spins hp hwriting hclosed hending n⟩

end LcmBus.Relay
