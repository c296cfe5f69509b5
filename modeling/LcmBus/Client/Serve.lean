import LcmBus.Client.Writer

/-!
# The relay, as the side that listens

The threads of `serve.rs` around each connection: the accept thread, which makes a peer in
`start_peer`, the writer and the reader of that peer, and `Served::shut`.

* `Peer`: one connection and the two threads of it; `State`: the relay, with each peer it ever had
  under its number;
* `step`: one step of any thread.  What a thread does under one lock, or with one atomic, is one
  step;
* `Tidy` and `Tidy.step`: what the steps keep, where no `drop_peer` comes before the push of its
  peer;
* `forgotten`: a client that leaves such a relay is forgotten, and `remembered_of_early_drop` is one
  that is not.

The frames a reader hands on are not modelled here: `peer_reader` is in its loop or out of it.
-/

namespace LcmBus.Serve

open Relay

/-- Where the reader thread of a peer is. -/
inductive Reader
  | unborn
  | reading
  /-- Out of `peer_reader`, and about to call `drop_peer`. -/
  | ended
  /-- In `drop_peer`, with the peer off the list. -/
  | dropped
  /-- In `drop_peer`, with the outbox shut. -/
  | hangingUp
  | gone
  deriving DecidableEq, Repr

/-- `Peer`, with what `start_peer` came to for it. -/
structure Peer where
  link : Link
  /-- The writer thread was started. -/
  writing : Bool
  reader : Reader
  /-- `start_peer` put it on the list. -/
  pushed : Bool
  /-- `start_peer` gave back `Ok`. -/
  returned : Bool

def Peer.new : Peer := ⟨.new, false, .unborn, false, false⟩

/-- Where the accept thread is, in `accept_loop` and in `start_peer`. -/
inductive Accept
  /-- About to look at `running`. -/
  | polling
  | listening
  /-- About to start the writer of a peer. -/
  | created (id : ℕ)
  /-- About to start its reader. -/
  | writing (id : ℕ)
  /-- About to push it. -/
  | reading (id : ℕ)
  | listed (id : ℕ)
  | left
  deriving DecidableEq, Repr

/-- The peer that is not on the list yet. -/
def Accept.starting : Accept → Option ℕ
  | .created id | .writing id | .reading id => some id
  | _ => none

structure State where
  running : Bool
  peers : List ℕ
  nextId : ℕ
  accepted : ℕ
  refused : ℕ
  known : ℕ → Option Peer
  accept : Accept
  /-- The peers `Served::shut` took off the list and has not shut. -/
  shutting : List ℕ
  /-- Those whose outbox it shut, and not their stream. -/
  hangingUp : List ℕ

inductive Act
  | poll
  /-- No connection waits. -/
  | nothing
  /-- The listener is gone, and the accept thread returns. -/
  | listenerGone
  | accept
  | spawnWriter
  | spawnReader
  | push
  | finish
  /-- `start_peer` gives back an error: the greeting, or a thread that does not start. -/
  | fail
  /-- A step of the writer of a peer, or a call of its outbox. -/
  | peer (id : ℕ) (act : Link.Act)
  | readerEnds (id : ℕ)
  /-- The handler of the relay panics, and takes the reader past its `drop_peer`. -/
  | readerPanics (id : ℕ)
  | drop (id : ℕ)
  | dropShut (id : ℕ)
  | dropHangUp (id : ℕ)
  /-- `Served::shut`, or the `close` that calls it. -/
  | stop
  | takePeers
  | shutPeer (id : ℕ)
  | shutHangUp (id : ℕ)
  deriving DecidableEq, Repr

namespace State

def new : State := ⟨true, [], 0, 0, 0, fun _ => none, .polling, [], []⟩

/-- What a step does to one peer. -/
def modify (s : State) (id : ℕ) (change : Peer → Option Peer) : Option State :=
  (s.known id).bind fun p => (change p).map fun q =>
    { s with known := Function.update s.known id (some q) }

end State

/-- A step of the reader of a peer, from where it is to where it goes. -/
def Peer.readerStep (start : Reader) (change : Peer → Peer) (p : Peer) : Option Peer :=
  if p.reader = start then some (change p) else none

/-- Whether a step of the writer, or a call of the outbox, can be: `dispatch` reaches the peers that
were on the list. -/
def Peer.allows (p : Peer) (act : Link.Act) : Bool := if act.ofWriter then p.writing else p.pushed

/-- A step of the writer of a peer, or a call of its outbox. -/
def Peer.linkStep (running : Bool) (act : Link.Act) (p : Peer) : Option Peer :=
  if p.allows act then (Link.step running p.link act).map fun link => { p with link } else none

/-- One step of one thread. -/
def step (s : State) : Act → Option State
  | .poll =>
    match s.accept with
    | .polling => some { s with accept := if s.running then .listening else .left }
    | _ => none
  | .nothing =>
    match s.accept with
    | .listening => some { s with accept := .polling }
    | _ => none
  | .listenerGone =>
    match s.accept with
    | .listening => some { s with accept := .left }
    | _ => none
  | .accept =>
    match s.accept with
    | .listening => some { s with
        accept := .created s.nextId
        nextId := s.nextId + 1
        known := Function.update s.known s.nextId (some .new) }
    | _ => none
  | .spawnWriter =>
    match s.accept with
    | .created id =>
      { s with accept := .writing id }.modify id fun p => some { p with writing := true }
    | _ => none
  | .spawnReader =>
    match s.accept with
    | .writing id =>
      { s with accept := .reading id }.modify id fun p => some { p with reader := .reading }
    | _ => none
  | .push =>
    match s.accept with
    | .reading id =>
      { s with accept := .listed id, peers := s.peers ++ [id] }.modify id fun p =>
        some { p with pushed := true }
    | _ => none
  | .finish =>
    match s.accept with
    | .listed id =>
      { s with accept := .polling, accepted := s.accepted + 1 }.modify id fun p =>
        some { p with returned := true }
    | _ => none
  | .fail =>
    match s.accept with
    | .listening | .created _ | .writing _ =>
      some { s with accept := .polling, refused := s.refused + 1 }
    | _ => none
  | .peer id act => s.modify id (Peer.linkStep s.running act)
  | .readerEnds id => s.modify id (Peer.readerStep .reading fun p => { p with reader := .ended })
  | .readerPanics id => s.modify id (Peer.readerStep .reading fun p => { p with reader := .gone })
  | .drop id =>
    if id ∈ s.peers then
      { s with peers := s.peers.erase id }.modify id
        (Peer.readerStep .ended fun p => { p with reader := .dropped })
    else s.modify id (Peer.readerStep .ended fun p => { p with reader := .gone })
  | .dropShut id => s.modify id
      (Peer.readerStep .dropped fun p => { p with reader := .hangingUp, link := p.link.shut })
  | .dropHangUp id => s.modify id
      (Peer.readerStep .hangingUp fun p => { p with reader := .gone, link := p.link.hangUp })
  | .stop => some { s with running := false }
  | .takePeers =>
    if s.running then none else some { s with shutting := s.shutting ++ s.peers, peers := [] }
  | .shutPeer id =>
    if id ∈ s.shutting then
      { s with shutting := s.shutting.erase id, hangingUp := s.hangingUp ++ [id] }.modify id fun p =>
        some { p with link := p.link.shut }
    else none
  | .shutHangUp id =>
    if id ∈ s.hangingUp then
      { s with hangingUp := s.hangingUp.erase id }.modify id fun p =>
        some { p with link := p.link.hangUp }
    else none

/-! ### A client that leaves -/

/-- A step comes in time: a reader is out through its `drop_peer`, and behind the push of its
peer. -/
def Timely (s : State) : Act → Prop
  | .drop id => (s.known id).any Peer.pushed = true
  | .readerPanics _ => False
  | _ => True

instance (s : State) : ∀ act, Decidable (Timely s act)
  | .drop id => inferInstanceAs (Decidable ((s.known id).any Peer.pushed = true))
  | .readerPanics _ => inferInstanceAs (Decidable False)
  | .poll | .nothing | .listenerGone | .accept | .spawnWriter | .spawnReader | .push | .finish | .fail
  | .peer _ _ | .readerEnds _ | .dropShut _ | .dropHangUp _ | .stop | .takePeers | .shutPeer _
  | .shutHangUp _ => inferInstanceAs (Decidable True)

/-- The reader took its peer off the list. -/
def Reader.out : Reader → Bool
  | .dropped | .hangingUp | .gone => true
  | _ => false

/-- What holds of a peer of a relay whose steps come in time, by the two lists it can be on. -/
structure Kept (peers shutting : List ℕ) (id : ℕ) (p : Peer) : Prop where
  listed : id ∈ peers → p.pushed = true
  pushed : p.pushed = true → id ∈ peers ∨ id ∈ shutting ∨ p.reader = .dropped ∨ p.link.Closed
  out : p.reader.out = true → p.pushed = true ∧ id ∉ peers
  returned : p.returned = true → p.pushed = true

/-- What holds of such a relay. -/
structure Tidy (s : State) : Prop where
  nodup : s.peers.Nodup
  lt_nextId : ∀ id ∈ s.peers, id < s.nextId
  fresh : ∀ id p, s.known id = some p → id < s.nextId
  starting : ∀ id p, s.accept.starting = some id → s.known id = some p → p.pushed = false
  listed : ∀ id p, s.accept = .listed id → s.known id = some p → p.pushed = true
  kept : ∀ id p, s.known id = some p → Kept s.peers s.shutting id p

theorem tidy_new : Tidy .new := by
  constructor <;> simp [State.new, Accept.starting]

namespace State

variable {s t : State}

/-- A change of one peer leaves the rest of the relay as it is. -/
theorem modify_eq_some {id : ℕ} {change : Peer → Option Peer} :
    s.modify id change = some t ↔ ∃ p q, s.known id = some p ∧ change p = some q ∧
      { s with known := Function.update s.known id (some q) } = t := by
  simp [modify, Option.bind_eq_some_iff]

end State

theorem Peer.readerStep_eq_some {start : Reader} {change : Peer → Peer} {p q : Peer} :
    p.readerStep start change = some q ↔ p.reader = start ∧ change p = q := by
  simp [readerStep]

theorem Peer.linkStep_eq_some {running : Bool} {act : Link.Act} {p q : Peer} :
    p.linkStep running act = some q ↔ p.allows act = true ∧
      ∃ link, Link.step running p.link act = some link ∧ { p with link } = q := by
  simp [linkStep]

section Step

variable {s t u : State} {id : ℕ} {p q : Peer}

/-- A step that changes one peer, and what the relay says of it. -/
theorem Tidy.modify (h : Tidy s) (hp : s.known id = some p) (hnext : u.nextId = s.nextId)
    (hnodup : u.peers.Nodup) (hlt : ∀ i ∈ u.peers, i < s.nextId)
    (hstarting : ∀ i, u.accept.starting = some i → s.accept.starting = some i)
    (hlisted : ∀ i, u.accept = .listed i → s.accept = .listed i ∨ i = id ∧ q.pushed = true)
    (hpushed : q.pushed = p.pushed ∨ q.pushed = true ∧ u.accept.starting ≠ some id)
    (hothers : ∀ i r, i ≠ id → Kept s.peers s.shutting i r → Kept u.peers u.shutting i r)
    (hq : Kept s.peers s.shutting id p → Kept u.peers u.shutting id q) :
    Tidy { u with known := Function.update s.known id (some q) } where
  nodup := hnodup
  lt_nextId i hi := hnext ▸ hlt i hi
  fresh i r hr := by
    rw [hnext]
    by_cases hi : i = id
    · exact hi ▸ h.fresh id p hp
    · exact h.fresh i r (by simpa [hi] using hr)
  starting i r hi hr := by
    by_cases heq : i = id
    · subst heq
      obtain rfl : q = r := by simpa using hr
      rcases hpushed with hpushed | ⟨-, hne⟩
      · exact hpushed.trans (h.starting i p (hstarting i hi) hp)
      · exact absurd hi hne
    · exact h.starting i r (hstarting i hi) (by simpa [heq] using hr)
  listed i r hi hr := by
    by_cases heq : i = id
    · subst heq
      obtain rfl : q = r := by simpa using hr
      rcases hlisted i hi with hlisted | ⟨-, hlisted⟩
      · have hpp := h.listed i p hlisted hp
        rcases hpushed with hpushed | ⟨hpushed, -⟩
        · exact hpushed.trans hpp
        · exact hpushed
      · exact hlisted
    · rcases hlisted i hi with hlisted | ⟨rfl, -⟩
      · exact h.listed i r hlisted (by simpa [heq] using hr)
      · exact absurd rfl heq
  kept i r hr := by
    by_cases heq : i = id
    · subst heq
      obtain rfl : q = r := by simpa using hr
      exact hq (h.kept i p hp)
    · exact hothers i r heq (h.kept i r (by simpa [heq] using hr))

/-- A step of one peer by itself. -/
theorem Tidy.modify_self (h : Tidy s) (hp : s.known id = some p) (hpushed : q.pushed = p.pushed)
    (hq : Kept s.peers s.shutting id p → Kept s.peers s.shutting id q) :
    Tidy { s with known := Function.update s.known id (some q) } :=
  h.modify hp rfl h.nodup h.lt_nextId (fun _ hi => hi) (fun _ => .inl) (.inl hpushed)
    (fun _ _ _ hr => hr) hq

/-- A step of the accept thread that is no step of a peer. -/
theorem Tidy.setAccept (h : Tidy s) {accept : Accept} {refused : ℕ} {running : Bool}
    (hstarting : accept.starting = none) (hlisted : ∀ i, accept ≠ .listed i) :
    Tidy { s with accept, refused, running } :=
  ⟨h.nodup, h.lt_nextId, h.fresh, by simp [hstarting], fun i _ hi => absurd hi (hlisted i), h.kept⟩

/-- A reader or a writer that stays off the lists keeps what holds of its peer. -/
theorem Kept.mono {peers shutting : List ℕ} (h : Kept peers shutting id p) (hpushed : q.pushed = p.pushed)
    (hreturned : q.returned = p.returned) (hout : q.reader.out = true → p.reader.out = true)
    (hclosed : p.reader = .dropped ∨ p.link.Closed → q.reader = .dropped ∨ q.link.Closed) :
    Kept peers shutting id q :=
  ⟨fun hi => hpushed.trans (h.listed hi),
    fun hq => (h.pushed (hpushed.symm.trans hq)).imp_right (Or.imp_right hclosed),
    fun hq => (h.out (hout hq)).imp_left hpushed.trans,
    fun hq => hpushed.trans (h.returned (hreturned.symm.trans hq))⟩

/-- What holds of a peer says nothing of the others that are on the lists. -/
theorem Kept.congr {peers peers' shutting shutting' : List ℕ} (h : Kept peers shutting id p)
    (hpeers : id ∈ peers' ↔ id ∈ peers) (hshutting : id ∈ shutting' ↔ id ∈ shutting) :
    Kept peers' shutting' id p :=
  ⟨fun hm => h.listed (hpeers.1 hm), fun hp => by simpa only [hpeers, hshutting] using h.pushed hp,
    fun ho => by simpa only [hpeers] using h.out ho, h.returned⟩

/-- **What holds of a relay is kept by every step that comes in time.** -/
theorem Tidy.step {act : Act} (h : Tidy s) (htimely : Timely s act) (hstep : step s act = some t) :
    Tidy t := by
  cases act with
  | poll =>
    simp only [Serve.step] at hstep
    split at hstep <;> cases hstep
    exact h.setAccept (by split <;> rfl) (by intro i; split <;> simp)
  | nothing | listenerGone =>
    simp only [Serve.step] at hstep
    split at hstep <;> cases hstep
    exact h.setAccept rfl (by simp)
  | fail =>
    simp only [Serve.step] at hstep
    split at hstep <;> cases hstep <;> exact h.setAccept rfl (by simp)
  | stop =>
    cases hstep
    exact ⟨h.nodup, h.lt_nextId, h.fresh, h.starting, h.listed, h.kept⟩
  | accept =>
    simp only [Serve.step] at hstep
    split at hstep <;> cases hstep
    have hnew : ∀ {i r}, Function.update s.known s.nextId (some Peer.new) i = some r →
        i = s.nextId ∧ r = .new ∨ s.known i = some r := fun {i r} hr => by
      by_cases hi : i = s.nextId
      · exact .inl ⟨hi, by simpa [hi, eq_comm] using hr⟩
      · exact .inr (by simpa [hi] using hr)
    refine ⟨h.nodup, fun i hi => (h.lt_nextId i hi).trans (by simp), fun i r hr => ?_,
      fun i r hi hr => ?_, by simp, fun i r hr => ?_⟩
    · rcases hnew hr with ⟨rfl, -⟩ | hr
      · simp
      · exact (h.fresh i r hr).trans (by simp)
    · rcases hnew hr with ⟨-, rfl⟩ | hr
      · rfl
      · -- The peer being started is the new one.
        obtain rfl : s.nextId = i := by simpa [Accept.starting] using hi
        exact absurd (h.fresh _ r hr) (lt_irrefl _)
    · rcases hnew hr with ⟨rfl, rfl⟩ | hr
      · exact ⟨fun hi => absurd (h.lt_nextId _ hi) (lt_irrefl _), by simp [Peer.new],
          by simp [Peer.new, Reader.out], by simp [Peer.new]⟩
      · exact h.kept i r hr
  | spawnWriter =>
    simp only [Serve.step] at hstep
    split at hstep
    · rename_i id hcreated
      obtain ⟨p, q, hp, hq, rfl⟩ := State.modify_eq_some.1 hstep
      cases hq
      exact h.modify (u := { s with accept := .writing id }) hp rfl h.nodup h.lt_nextId
        (by simp [hcreated, Accept.starting]) (by simp) (.inl rfl) (fun _ _ _ hr => hr)
        fun hk => hk.mono rfl rfl (fun ho => ho) fun hc => hc
    · cases hstep
  | spawnReader =>
    simp only [Serve.step] at hstep
    split at hstep
    · rename_i id hwriting
      obtain ⟨p, q, hp, hq, rfl⟩ := State.modify_eq_some.1 hstep
      cases hq
      have hpushed := h.starting id p (by rw [hwriting]; rfl) hp
      exact h.modify (u := { s with accept := .reading id }) hp rfl h.nodup h.lt_nextId
        (by simp [hwriting, Accept.starting]) (by simp) (.inl rfl) (fun _ _ _ hr => hr)
        fun hk => ⟨hk.listed, by simp [hpushed], by simp [Reader.out], hk.returned⟩
    · cases hstep
  | push =>
    simp only [Serve.step] at hstep
    split at hstep
    · rename_i id hreading
      obtain ⟨p, q, hp, hq, rfl⟩ := State.modify_eq_some.1 hstep
      cases hq
      have hpushed := h.starting id p (by rw [hreading]; rfl) hp
      have hmem : id ∉ s.peers := fun hi => by simp [(h.kept id p hp).listed hi] at hpushed
      refine h.modify (u := { s with accept := .listed id, peers := s.peers ++ [id] }) hp rfl ?_ ?_
        (by simp [Accept.starting]) (by simp) (.inr ⟨rfl, by simp [Accept.starting]⟩) ?_ ?_
      · exact List.nodup_append.2 ⟨h.nodup, List.nodup_singleton id, by
          rintro i hi _ hid rfl
          exact hmem (List.mem_singleton.1 hid ▸ hi)⟩
      · intro i hi
        rcases List.mem_append.1 hi with hi | hi
        · exact h.lt_nextId i hi
        · exact List.mem_singleton.1 hi ▸ h.fresh id p hp
      · intro i r hi hr
        exact hr.congr (by simp [hi]) Iff.rfl
      · intro hk
        exact ⟨fun _ => rfl, fun _ => .inl (by simp), fun ho => by simp [(hk.out ho).1] at hpushed,
          fun _ => rfl⟩
    · cases hstep
  | finish =>
    simp only [Serve.step] at hstep
    split at hstep
    · rename_i id hlisted
      obtain ⟨p, q, hp, hq, rfl⟩ := State.modify_eq_some.1 hstep
      cases hq
      have hpushed := h.listed id p hlisted hp
      exact h.modify (u := { s with accept := .polling, accepted := s.accepted + 1 }) hp rfl h.nodup
        h.lt_nextId (by simp [Accept.starting]) (by simp) (.inl rfl) (fun _ _ _ hr => hr)
        fun hk => ⟨hk.listed, hk.pushed, hk.out, fun _ => hpushed⟩
    · cases hstep
  | peer id act =>
    obtain ⟨p, q, hp, hq, rfl⟩ := State.modify_eq_some.1 hstep
    obtain ⟨-, link, hlink, rfl⟩ := Peer.linkStep_eq_some.1 hq
    exact h.modify_self hp rfl fun hk => hk.mono rfl rfl (fun ho => ho)
      (Or.imp_right fun hc => hc.step hlink)
  | readerEnds id =>
    obtain ⟨p, q, hp, hq, rfl⟩ := State.modify_eq_some.1 hstep
    obtain ⟨hreader, rfl⟩ := Peer.readerStep_eq_some.1 hq
    exact h.modify_self hp rfl fun hk => hk.mono rfl rfl (by simp [Reader.out]) (by simp [hreader])
  | readerPanics id => exact htimely.elim
  | drop id =>
    have hpushed : ∀ {p}, s.known id = some p → p.pushed = true := fun {p} hp => by
      simpa [Timely, hp] using htimely
    simp only [Serve.step] at hstep
    split at hstep
    · rename_i hmem
      obtain ⟨p, q, hp, hq, rfl⟩ := State.modify_eq_some.1 hstep
      obtain ⟨hreader, rfl⟩ := Peer.readerStep_eq_some.1 hq
      have hpushed := hpushed hp
      have herase : ∀ i, i ∈ s.peers.erase id ↔ i ≠ id ∧ i ∈ s.peers := fun i => h.nodup.mem_erase_iff
      refine h.modify (u := { s with peers := s.peers.erase id }) hp rfl (h.nodup.erase id)
        (fun i hi => h.lt_nextId i ((herase i).1 hi).2) (fun _ hi => hi) (fun _ => .inl) (.inl rfl)
        (fun i r hi hr => hr.congr (by simp [herase, hi]) Iff.rfl) fun hk => ?_
      · exact ⟨fun _ => hpushed, fun _ => .inr (.inr (.inl rfl)), fun _ => ⟨hpushed, by simp [herase]⟩,
          hk.returned⟩
    · rename_i hmem
      obtain ⟨p, q, hp, hq, rfl⟩ := State.modify_eq_some.1 hstep
      obtain ⟨hreader, rfl⟩ := Peer.readerStep_eq_some.1 hq
      have hpushed := hpushed hp
      exact h.modify_self hp rfl fun hk =>
        ⟨hk.listed, fun hp => by simpa [hreader] using hk.pushed hp, fun _ => ⟨hpushed, hmem⟩,
          hk.returned⟩
  | dropShut id =>
    obtain ⟨p, q, hp, hq, rfl⟩ := State.modify_eq_some.1 hstep
    obtain ⟨hreader, rfl⟩ := Peer.readerStep_eq_some.1 hq
    exact h.modify_self hp rfl fun hk => hk.mono rfl rfl (fun _ => by rw [hreader]; rfl)
      fun _ => .inr Link.closed_shut
  | dropHangUp id =>
    obtain ⟨p, q, hp, hq, rfl⟩ := State.modify_eq_some.1 hstep
    obtain ⟨hreader, rfl⟩ := Peer.readerStep_eq_some.1 hq
    exact h.modify_self hp rfl fun hk => hk.mono rfl rfl (fun _ => by rw [hreader]; rfl)
      fun hc => .inr (by simpa [hreader] using hc)
  | takePeers =>
    simp only [Serve.step] at hstep
    split at hstep <;> cases hstep
    refine ⟨List.nodup_nil, by simp, h.fresh, h.starting, h.listed, fun i r hr => ?_⟩
    have hk := h.kept i r hr
    refine ⟨by simp, fun hp => ?_, fun ho => ⟨(hk.out ho).1, by simp⟩, hk.returned⟩
    rcases hk.pushed hp with hi | hi | hi
    · exact .inr (.inl (by simp [hi]))
    · exact .inr (.inl (by simp [hi]))
    · exact .inr (.inr hi)
  | shutPeer id =>
    simp only [Serve.step] at hstep
    split at hstep
    · obtain ⟨p, q, hp, hq, rfl⟩ := State.modify_eq_some.1 hstep
      cases hq
      refine h.modify (u := { s with
          shutting := s.shutting.erase id, hangingUp := s.hangingUp ++ [id] }) hp rfl h.nodup
        h.lt_nextId (fun _ hi => hi) (fun _ => .inl) (.inl rfl)
        (fun i r hi hr => hr.congr Iff.rfl (List.mem_erase_of_ne hi)) fun hk => ?_
      exact ⟨hk.listed, fun _ => .inr (.inr (.inr Link.closed_shut)), hk.out, hk.returned⟩
    · cases hstep
  | shutHangUp id =>
    simp only [Serve.step] at hstep
    split at hstep
    · obtain ⟨p, q, hp, hq, rfl⟩ := State.modify_eq_some.1 hstep
      cases hq
      exact h.modify (u := { s with hangingUp := s.hangingUp.erase id }) hp rfl h.nodup h.lt_nextId
        (fun _ hi => hi) (fun _ => .inl) (.inl rfl) (fun _ _ _ hr => hr)
        fun hk => hk.mono rfl rfl (fun ho => ho) (by simp)
    · cases hstep

end Step

/-- **A client that leaves a served relay is forgotten**, in any interleaving in which no reader
comes to its `drop_peer` before the accept thread has pushed its peer, or passes it by: where
`start_peer` has given the peer back and its reader is gone, the peer is off the list, and its
outbox is closed.  Where `Served::shut` took it off the list, that one closes the outbox. -/
theorem forgotten {acts : List Act} {s : State} {id : ℕ} {p : Peer}
    (hrun : Machine.run step .new acts = some s) (htimely : Machine.Each step Timely .new acts)
    (hp : s.known id = some p) (hreturned : p.returned = true) (hgone : p.reader = .gone) :
    id ∉ s.peers ∧ (id ∉ s.shutting → p.link.Closed) := by
  have htidy := Machine.run_invariant_of_each (fun _ _ _ h hc hstep => Tidy.step h hc hstep) tidy_new
    htimely hrun
  have hk := htidy.kept id p hp
  have hout := (hk.out (by rw [hgone]; rfl)).2
  refine ⟨hout, fun hshutting => ?_⟩
  rcases hk.pushed (hk.returned hreturned) with hi | hi | hi | hi
  · exact absurd hi hout
  · exact absurd hi hshutting
  · simp [hgone] at hi
  · exact hi

/-- A client that lives a while, and leaves. -/
def wholeLife : List Act :=
  [.poll, .accept, .spawnWriter, .spawnReader, .push, .finish, .readerEnds 0, .drop 0, .dropShut 0,
    .dropHangUp 0]

theorem forgotten_of_wholeLife : ∃ s p, Machine.run step .new wholeLife = some s ∧
    s.known 0 = some p ∧ 0 ∉ s.peers ∧ p.link.Closed := by
  obtain ⟨s, p, hrun, hp, hreturned, hgone, hshutting⟩ : ∃ s p,
      Machine.run step .new wholeLife = some s ∧ s.known 0 = some p ∧ p.returned = true ∧
        p.reader = .gone ∧ s.shutting = [] :=
    ⟨_, _, rfl, rfl, rfl, rfl, rfl⟩
  have htimely : Machine.Each step Timely .new wholeLife := by decide
  obtain ⟨hpeers, hclosed⟩ := forgotten hrun htimely hp hreturned hgone
  exact ⟨s, p, hrun, hp, hpeers, hclosed (by simp [hshutting])⟩

/-- A client whose reader ends before the accept thread has pushed its peer.  `drop_peer` finds no
peer to drop, and the push behind it puts one on the list that nothing takes off. -/
theorem remembered_of_early_drop : ∃ s p,
    Machine.run step .new [.poll, .accept, .spawnWriter, .spawnReader, .readerEnds 0, .drop 0, .push,
      .finish] = some s ∧ s.known 0 = some p ∧ p.returned = true ∧ p.reader = .gone ∧
    ¬ (0 ∉ s.peers ∧ p.link.Closed) :=
  ⟨_, _, rfl, rfl, rfl, rfl, fun h => absurd List.mem_cons_self h.1⟩

end LcmBus.Serve
