import LcmBus.Client.MulticastReader
import LcmBus.Client.MulticastWire

/-!
# A multicast group

Any number of publishers and readers on one group, and the network between them: a datagram that was
handed to a socket reaches a reader any number of times, or never, and in any sequence, and datagrams of
other senders come in between.

* `Member` and `Member.step`: a client that receives: its reader, and those that change its rules;
* `State` and `step`: one step of any publish, any reader, or the network;
* `came`, `Selects`: of a past, the datagrams of a publisher that a member received, and whether its
  rules selected a channel each time one came;
* `hears_what_was_sent`: what a handler hears of a publisher is a message of that publisher, and no more
  often than the network brought each datagram of it;
* `hears_all_that_came`: a message of which every datagram came is heard, as long as nothing is evicted.

A publisher is known by the address it sends from, which no other sender has.
-/

open Std (TransOrd LawfulEqOrd)

namespace LcmBus.Group

open Udpm Multicast

variable {K Regex : Type} [Ord K] [TransOrd K]

/-! ### The members -/

structure Member (K Regex : Type) [Ord K] where
  running : Bool
  /-- The reader is in `recv_from`. -/
  waits : Bool
  subscriptions : Subscriptions Regex
  reader : Multicast.Reader K
  /-- What `udpm_reader` gave back. -/
  ended : Option (Option Stop)

def Member.new (subscriptions : Subscriptions Regex) : Member K Regex where
  running := true
  waits := false
  subscriptions := subscriptions
  reader := .new
  ended := none

/-- What a thread of a member does. -/
inductive Move (K : Type)
  /-- The head of the loop of the reader. -/
  | look
  /-- The rest of its turn, where `recv_from` gives this back. -/
  | receives (receipt : Receipt K)
  /-- An operation on the subscriptions, which tells no one.  One that `close` has refused is no step. -/
  | subscribeName (channel : String)
  | subscribe (pattern : String)
  | unsubscribe (subscription : String)
  | close
  deriving DecidableEq, Repr

variable [DecidableEq K]

def Member.step (sort : UnstableSort) (engine : Engine Regex) (m : Member K Regex) :
    Move K → Option (Member K Regex)
  | .look =>
    if m.waits ∨ m.ended ≠ none then none
    else some (if m.running then { m with waits := true } else { m with ended := some none })
  | .receives receipt =>
    if m.waits then
      let (reader, stop) := udpmReader sort engine m.subscriptions m.reader receipt
      some { m with reader, waits := false, ended := stop.map some }
    else none
  | .subscribeName channel =>
    match m.subscriptions.addName channel with
    | .ok subscriptions => some { m with subscriptions }
    | .error _ => some m
  | .subscribe pattern =>
    match m.subscriptions.add engine pattern with
    | .ok subscriptions => some { m with subscriptions }
    | .error _ => some m
  | .unsubscribe subscription => some { m with subscriptions := (m.subscriptions.remove subscription).2 }
  | .close => some { m with running := false }

/-! ### The group -/

structure State (K Regex : Type) [Ord K] where
  publishers : K → Multicast.State
  members : ℕ → Member K Regex

def start (shortMax : K → ℕ) (subscriptions : ℕ → Subscriptions Regex) : State K Regex :=
  ⟨fun source => .new (shortMax source), fun member => .new (subscriptions member)⟩

inductive Act (K : Type)
  /-- A step of a publish at an address of `ours`. -/
  | publish (source : K) (event : Event)
  /-- The network brings what a publisher handed to its socket, to a reader that waits. -/
  | bring (member : ℕ) (source : K) (place : ℕ)
  /-- Any other step of a member: what it receives is no datagram of ours. -/
  | move (member : ℕ) (move : Move K)
  deriving DecidableEq, Repr

/-- The address that a move has a datagram from. -/
def Move.peer : Move K → Option K
  | .receives (.datagram peer _) => some peer
  | _ => none

def State.setMember (s : State K Regex) (member : ℕ) (m : Member K Regex) : State K Regex :=
  { s with members := Function.update s.members member m }

omit [TransOrd K] [DecidableEq K] in
theorem State.setMember_self (s : State K Regex) (member : ℕ) (m : Member K Regex) :
    (s.setMember member m).members member = m := by
  simp [State.setMember]

omit [TransOrd K] [DecidableEq K] in
theorem State.setMember_of_ne (s : State K Regex) {member other : ℕ} (m : Member K Regex)
    (h : other ≠ member) : (s.setMember member m).members other = s.members other := by
  simp [State.setMember, h]

def step (ours : K → Bool) (sort : UnstableSort) (engine : Engine Regex) (s : State K Regex) :
    Act K → Option (State K Regex)
  | .publish source event =>
    if ours source then
      (Multicast.step (s.publishers source) event).map fun p =>
        { s with publishers := Function.update s.publishers source p }
    else none
  | .bring member source place =>
    if ours source then
      match (s.publishers source).wire[place]? with
      | some datagram =>
        ((s.members member).step sort engine (.receives (.datagram source datagram.2))).map
          (s.setMember member)
      | none => none
    else none
  | .move member move =>
    if move.peer.any ours then none
    else ((s.members member).step sort engine move).map (s.setMember member)

/-! ### Its past -/

abbrev Past (K Regex : Type) [Ord K] := List (State K Regex × Act K × State K Regex)

/-- The datagram of a publisher that a step brings to a member. -/
def brought (member : ℕ) (source : K) (s : State K Regex) : Act K → List Bytes
  | .bring m peer place =>
    if m = member ∧ peer = source then ((s.publishers source).wire[place]?.map Prod.snd).toList else []
  | _ => []

/-- The datagrams of a publisher that came to a member. -/
def came (member : ℕ) (source : K) (past : Past K Regex) : List Bytes :=
  past.flatMap fun entry => brought member source entry.1 entry.2.1

/-- The rules of a member selected a channel each time that a datagram of a publisher came. -/
def Selects (engine : Engine Regex) (member : ℕ) (source : K) (channel : String) (past : Past K Regex) :
    Prop :=
  ∀ entry ∈ past, brought member source entry.1 entry.2.1 ≠ [] →
    (entry.1.members member).subscriptions.selects engine channel = true

/-- The errors that a member had, and the datagrams that came to it from senders that are not ours. -/
def strays (member : ℕ) (past : Past K Regex) : ℕ :=
  past.countP fun entry => match entry.2.1 with
    | .move m (.receives _) => m = member
    | _ => false

omit [TransOrd K] in
theorem came_concat (member : ℕ) (source : K) (past : Past K Regex) (s t : State K Regex) (act : Act K) :
    came member source (past ++ [(s, act, t)]) =
      came member source past ++ brought member source s act := by
  rw [came, List.flatMap_append, List.flatMap_singleton]
  rfl

omit [TransOrd K] in
theorem mem_brought {member : ℕ} {source : K} {s : State K Regex} {act : Act K} {bytes : Bytes}
    (h : bytes ∈ brought member source s act) :
    ∃ place k, act = .bring member source place ∧
      (s.publishers source).wire[place]? = some (k, bytes) := by
  cases act with
  | bring m peer place =>
    rw [brought] at h
    split_ifs at h with hsame
    · obtain ⟨rfl, rfl⟩ := hsame
      obtain ⟨⟨k, _⟩, hplace, rfl⟩ := Option.map_eq_some_iff.1 (Option.mem_toList.1 h)
      exact ⟨place, k, rfl, hplace⟩
    · cases h
  | publish | move => cases h

/-! ### What a step does -/

variable {ours : K → Bool} {sort : UnstableSort} {engine : Engine Regex} {s t : State K Regex}
  {past : Past K Regex} {act : Act K}

/-- No address has taken a number twice. -/
def Few (s : State K Regex) : Prop := ∀ source, (s.publishers source).published.length ≤ UInt32.size

/-- A step of a publish, or of the reader of one member, or of its rules. -/
inductive Steps (ours : K → Bool) (sort : UnstableSort) (engine : Engine Regex) (s : State K Regex) :
    Act K → State K Regex → Prop
  | publish (source : K) (event : Event) (p : Multicast.State) (hours : ours source = true)
      (hstep : Multicast.step (s.publishers source) event = some p) :
      Steps ours sort engine s (.publish source event)
        { s with publishers := Function.update s.publishers source p }
  | bring (member : ℕ) (source : K) (place : ℕ) (datagram : ℕ × Bytes) (m : Member K Regex)
      (hours : ours source = true) (hplace : (s.publishers source).wire[place]? = some datagram)
      (hreader : m.reader = (udpmReader sort engine (s.members member).subscriptions
        (s.members member).reader (.datagram source datagram.2)).1) :
      Steps ours sort engine s (.bring member source place) (s.setMember member m)
  | stray (member : ℕ) (receipt : Receipt K) (m : Member K Regex)
      (hpeer : ∀ peer data, receipt = .datagram peer data → ours peer = false)
      (hreader : m.reader = (udpmReader sort engine (s.members member).subscriptions
        (s.members member).reader receipt).1) :
      Steps ours sort engine s (.move member (.receives receipt)) (s.setMember member m)
  | move (member : ℕ) (move : Move K) (m : Member K Regex) (hmove : ∀ receipt, move ≠ .receives receipt)
      (hreader : m.reader = (s.members member).reader) :
      Steps ours sort engine s (.move member move) (s.setMember member m)

theorem steps_of_step (h : step ours sort engine s act = some t) : Steps ours sort engine s act t := by
  cases act with
  | publish source event =>
    rw [step] at h
    split_ifs at h with hours
    obtain ⟨p, hp, rfl⟩ := Option.map_eq_some_iff.1 h
    exact .publish source event p hours hp
  | bring member source place =>
    rw [step] at h
    split_ifs at h with hours
    split at h
    next datagram hplace =>
      obtain ⟨m, hm, rfl⟩ := Option.map_eq_some_iff.1 h
      rw [Member.step] at hm
      split_ifs at hm
      cases hm
      exact .bring member source place datagram _ hours hplace rfl
    next => cases h
  | move member move =>
    rw [step] at h
    split_ifs at h with hours
    obtain ⟨m, hm, rfl⟩ := Option.map_eq_some_iff.1 h
    cases move with
    | receives receipt =>
      rw [Member.step] at hm
      split_ifs at hm
      cases hm
      refine .stray member receipt _ ?_ rfl
      rintro peer data rfl
      simpa [Move.peer] using hours
    | look =>
      rw [Member.step] at hm
      split_ifs at hm <;> cases hm <;> exact .move member _ _ (by simp) rfl
    | subscribeName channel =>
      rw [Member.step] at hm
      split at hm <;> cases hm <;> exact .move member _ _ (by simp) rfl
    | subscribe pattern =>
      rw [Member.step] at hm
      split at hm <;> cases hm <;> exact .move member _ _ (by simp) rfl
    | unsubscribe subscription => cases hm; exact .move member _ _ (by simp) rfl
    | close => cases hm; exact .move member _ _ (by simp) rfl

/-- A publisher is as it was, or one step on. -/
theorem publishers_step (h : step ours sort engine s act = some t) (source : K) :
    t.publishers source = s.publishers source ∨
      ∃ event, Multicast.step (s.publishers source) event = some (t.publishers source) := by
  cases steps_of_step h with
  | publish peer event p hours hstep =>
    rcases eq_or_ne source peer with rfl | hne
    · exact .inr ⟨event, hstep.trans (congrArg some (Function.update_self source p s.publishers).symm)⟩
    · exact .inl (Function.update_of_ne hne p s.publishers)
  | bring | stray | move => exact .inl rfl

/-- A reader is as it was, or one turn on. -/
theorem reader_step (h : step ours sort engine s act = some t) (member : ℕ) :
    (t.members member).reader = (s.members member).reader ∨
      ∃ receipt, (t.members member).reader = (udpmReader sort engine (s.members member).subscriptions
        (s.members member).reader receipt).1 := by
  cases steps_of_step h with
  | publish => exact .inl rfl
  | bring m peer place datagram after hpeer hplace hreader =>
    rcases eq_or_ne member m with rfl | hmember
    · exact .inr ⟨_, by rw [s.setMember_self, hreader]⟩
    · exact .inl (by rw [s.setMember_of_ne after hmember])
  | stray m receipt after hpeer hreader =>
    rcases eq_or_ne member m with rfl | hmember
    · exact .inr ⟨_, by rw [s.setMember_self, hreader]⟩
    · exact .inl (by rw [s.setMember_of_ne after hmember])
  | move m move after hmove hreader =>
    rcases eq_or_ne member m with rfl | hmember
    · exact .inl (by rw [s.setMember_self, hreader])
    · exact .inl (by rw [s.setMember_of_ne after hmember])

theorem few_of_step (h : step ours sort engine s act = some t) (hfew : Few t) : Few s := by
  intro source
  rcases publishers_step h source with hsame | ⟨event, hstep⟩
  · exact hsame ▸ hfew source
  · exact (length_published_step hstep).1.trans (hfew source)

/-- A run takes no more numbers than it has steps. -/
theorem few_of_run {acts : List (Act K)} (hrun : Machine.run (step ours sort engine) s acts = some t)
    (hfew : ∀ source, (s.publishers source).published.length + acts.length ≤ UInt32.size) : Few t := by
  induction acts generalizing s with
  | nil => cases hrun; exact hfew
  | cons act acts ih =>
    obtain ⟨u, hu, hrest⟩ := Machine.run_cons_eq_some.1 hrun
    refine ih hrest fun source => ?_
    have hall := hfew source
    rw [List.length_cons] at hall
    rcases publishers_step hu source with hsame | ⟨event, hpublish⟩
    · rw [hsame]
      omega
    · have hone := (length_published_step hpublish).2
      omega

theorem laidOut_of_step (h : step ours sort engine s act = some t) (source : K) (sequence : UInt32) :
    ∀ laid ∈ (s.publishers source).laidOut sequence, laid ∈ (t.publishers source).laidOut sequence := by
  rcases publishers_step h source with hsame | ⟨event, hstep⟩
  · rw [hsame]
    exact fun laid hlaid => hlaid
  · exact fun laid hlaid => laidOut_step hstep hlaid

/-! ### What holds in every run -/

/-- A member follows the messages of a publisher, those with it that have no number yet. -/
def Followed (engine : Engine Regex) (member : ℕ) (source : K) (s : State K Regex)
    (past : Past K Regex) : Prop :=
  ∀ sequence frame datagrams, Layout sequence frame datagrams →
    (∀ laid ∈ (s.publishers source).laidOut sequence, laid = (frame, datagrams)) →
    ∃ given waiting, Follows source sequence frame datagrams (came member source past)
      (Selects engine member source frame.channel past) (s.members member).reader given waiting

structure Carried (ours : K → Bool) (engine : Engine Regex) (shortMax : K → ℕ) (s : State K Regex)
    (past : Past K Regex) : Prop where
  sound : ∀ source, Multicast.Sound (s.publishers source)
  hands : ∀ source, Hands (s.publishers source)
  limit : ∀ source, (s.publishers source).shortMax = shortMax source
  wired : ∀ member source, ∀ bytes ∈ came member source past,
    ∃ k, (k, bytes) ∈ (s.publishers source).wire
  followed : Few s → ∀ member source, ours source = true → Followed engine member source s past
  discarded : Few s → ∀ member,
    (s.members member).reader.heard.counters.discarded ≤ strays member past
  mirrors : ∀ member, (s.members member).reader.Mirrors

theorem carried_start (shortMax : K → ℕ) (subscriptions : ℕ → Subscriptions Regex) :
    Carried ours engine shortMax (start shortMax subscriptions : State K Regex) [] where
  sound source := sound_new _
  hands source := hands_new _
  limit source := rfl
  wired member source bytes hbytes := by cases hbytes
  followed _ member source _ sequence frame datagrams hlayout _ := by
    refine ⟨0, [], ?_, Collect.collected_nil hlayout.ne_nil _, fun _ _ a _ ha => ?_,
      0, le_rfl, rfl, fun _ => rfl⟩
    · exact (Reassembler.view_new (source, sequence)).symm ▸ hlayout.entered
    · exact absurd ha List.not_mem_nil
  discarded _ member := le_rfl
  mirrors member := ⟨rfl, rfl⟩

omit [TransOrd K] in
theorem selects_append {member : ℕ} {source : K} {channel : String} {past more : Past K Regex}
    (h : Selects engine member source channel (past ++ more)) :
    Selects engine member source channel past :=
  fun entry hentry => h entry (List.mem_append_left more hentry)

/-- What brings nothing of a publisher to a member, and leaves its reader, changes nothing of this. -/
theorem Followed.same {member : ℕ} {source : K} (h : Followed engine member source s past)
    (hlaid : ∀ sequence, ∀ laid ∈ (s.publishers source).laidOut sequence,
      laid ∈ (t.publishers source).laidOut sequence)
    (hbrought : brought member source s act = [])
    (hreader : (t.members member).reader = (s.members member).reader) :
    Followed engine member source t (past ++ [(s, act, t)]) := by
  intro sequence frame datagrams hlayout hall
  obtain ⟨given, waiting, hfollows⟩ := h sequence frame datagrams hlayout
    fun laid hlaidout => hall laid (hlaid sequence laid hlaidout)
  rw [came_concat, hbrought, List.append_nil, hreader]
  exact ⟨given, waiting, hfollows.mono selects_append⟩

variable [LawfulEqOrd K]

/-- A turn of the reader on what is not of the publisher. -/
theorem Followed.other {member : ℕ} {source : K} (h : Followed engine member source s past)
    (hlaid : (t.publishers source).laidOut = (s.publishers source).laidOut)
    (hbrought : brought member source s act = []) (receipt : Receipt K)
    (hpeer : ∀ peer data, receipt = .datagram peer data → peer ≠ source)
    (hreader : (t.members member).reader = (udpmReader sort engine (s.members member).subscriptions
      (s.members member).reader receipt).1) :
    Followed engine member source t (past ++ [(s, act, t)]) := by
  intro sequence frame datagrams hlayout hall
  obtain ⟨given, waiting, hfollows⟩ := h sequence frame datagrams hlayout (hlaid ▸ hall)
  obtain ⟨waiting, hnext⟩ := hfollows.other engine (s.members member).subscriptions sort receipt
    fun peer data heq => .inl (hpeer peer data heq)
  rw [came_concat, hbrought, List.append_nil, hreader]
  exact ⟨given, waiting, hnext.mono selects_append⟩

/-- A turn of the reader on a datagram of the publisher. -/
theorem Followed.bring {member : ℕ} {source : K} (h : Followed engine member source s past)
    {place k : ℕ} {bytes : Bytes} {frame₀ : Frame} {datagrams₀ : List Bytes}
    (hact : act = .bring member source place) (hplace : (s.publishers source).wire[place]? = some (k, bytes))
    (hlaid : (t.publishers source).laidOut = (s.publishers source).laidOut)
    (hown : (s.publishers source).laidOut (UInt32.ofNat k) = some (frame₀, datagrams₀))
    (hbytes : bytes ∈ datagrams₀) (hnumber : numberOf bytes = some (UInt32.ofNat k))
    (hlength : bytes.length ≤ MulticastReceiver.datagramMax)
    (hreader : (t.members member).reader = (udpmReader sort engine (s.members member).subscriptions
      (s.members member).reader (.datagram source bytes)).1) :
    Followed engine member source t (past ++ [(s, act, t)]) := by
  have hbrought : brought member source s act = [bytes] := by
    rw [hact, brought, if_pos ⟨rfl, rfl⟩, hplace]
    rfl
  intro sequence frame datagrams hlayout hall
  obtain ⟨given, waiting, hfollows⟩ := h sequence frame datagrams hlayout (hlaid ▸ hall)
  rw [came_concat, hbrought, hreader]
  by_cases hsequence : sequence = UInt32.ofNat k
  · subst hsequence
    obtain ⟨rfl, rfl⟩ : frame₀ = frame ∧ datagrams₀ = datagrams := by
      have heq := hall (frame₀, datagrams₀) (hlaid.symm ▸ hown)
      exact Prod.ext_iff.1 heq
    refine ⟨_, _, (hfollows.take engine (s.members member).subscriptions sort hbytes hlength).mono
      fun hselects => ⟨selects_append hselects, ?_⟩⟩
    refine hselects (s, act, t) (by simp) ?_
    rw [hbrought]
    exact List.cons_ne_nil _ _
  · have hne : numberOf bytes ≠ some sequence := fun heq =>
      hsequence (Option.some.inj (heq.symm.trans hnumber))
    have hnot : bytes ∉ datagrams := fun hmem => hne (hlayout.numberOf_eq hmem)
    obtain ⟨waiting, hnext⟩ := hfollows.other engine (s.members member).subscriptions sort
      (.datagram source bytes) fun peer data heq => by
        cases heq
        rw [List.take_of_length_le hlength]
        exact .inr hne
    exact ⟨given, waiting, (hnext.beside hnot).mono selects_append⟩

omit [LawfulEqOrd K] in
/-- What the network brings is a datagram of a message that its publisher laid out. -/
theorem Carried.wire {shortMax : K → ℕ} (h : Carried ours engine shortMax s past)
    (hmax : ∀ source, shortMax source ≤ BusUrl.maxShortMax) (hfew : Few s) {source : K} {place k : ℕ}
    {bytes : Bytes} (hplace : (s.publishers source).wire[place]? = some (k, bytes)) :
    ∃ frame datagrams, (s.publishers source).laidOut (UInt32.ofNat k) = some (frame, datagrams) ∧
      bytes ∈ datagrams ∧ numberOf bytes = some (UInt32.ofNat k) ∧
      bytes.length ≤ MulticastReceiver.datagramMax := by
  have hwire := List.mem_of_getElem? hplace
  obtain ⟨frame, datagrams, hlaid, hmem⟩ :=
    mem_wire (h.sound source) (h.hands source) (hfew source) hwire
  have hencode := (State.laidOut_eq_some.1 hlaid).2
  rw [h.limit source] at hencode
  exact ⟨frame, datagrams, hlaid, hmem, ((h.sound source).wire k bytes hwire).2,
    length_le_of_encode hencode (hmax source) hmem⟩

/-- **No step of the group gives a member what no publisher sent.** -/
theorem Carried.step {shortMax : K → ℕ} (h : Carried ours engine shortMax s past)
    (hmax : ∀ source, shortMax source ≤ BusUrl.maxShortMax)
    (hstep : step ours sort engine s act = some t) :
    Carried ours engine shortMax t (past ++ [(s, act, t)]) := by
  have hfew := few_of_step hstep
  have hlaid := laidOut_of_step hstep
  have hpublishers : ∀ source, (Multicast.Sound (t.publishers source) ∧ Hands (t.publishers source)) ∧
      (t.publishers source).shortMax = shortMax source ∧
        (s.publishers source).wire ⊆ (t.publishers source).wire := fun source => by
    rcases publishers_step hstep source with hsame | ⟨event, hpublish⟩
    · rw [hsame]
      exact ⟨⟨h.sound source, h.hands source⟩, h.limit source, List.Subset.refl _⟩
    · obtain ⟨hlimit, hwire, -⟩ := frames_step hpublish
      exact ⟨⟨(h.sound source).step hpublish, (h.hands source).step (h.sound source) hpublish⟩,
        hlimit.trans (h.limit source), hwire.subset⟩
  have hwired : ∀ member source, ∀ bytes ∈ came member source (past ++ [(s, act, t)]),
      ∃ k, (k, bytes) ∈ (t.publishers source).wire := fun member source bytes hbytes => by
    rw [came_concat, List.mem_append] at hbytes
    rcases hbytes with hbytes | hbytes
    · exact (h.wired member source bytes hbytes).imp fun _ hk => (hpublishers source).2.2 hk
    · obtain ⟨place, k, -, hplace⟩ := mem_brought hbytes
      exact ⟨k, (hpublishers source).2.2 (List.mem_of_getElem? hplace)⟩
  refine ⟨fun source => (hpublishers source).1.1, fun source => (hpublishers source).1.2,
    fun source => (hpublishers source).2.1, hwired, fun hnext member source hours => ?_,
    fun hnext member => ?_, fun member => ?_⟩
  · have hfollowed := h.followed (hfew hnext) member source hours
    cases steps_of_step hstep with
    | publish peer event p hpeer hpublish => exact hfollowed.same (hlaid source) rfl rfl
    | bring m peer place datagram after hpeer hplace hreader =>
      obtain ⟨k, bytes⟩ := datagram
      obtain ⟨frame, datagrams, hown, hmem, hnumber, hlength⟩ := h.wire hmax (hfew hnext) hplace
      rcases eq_or_ne member m with rfl | hmember
      · rw [← s.setMember_self member after] at hreader
        rcases eq_or_ne source peer with rfl | hsource
        · exact hfollowed.bring rfl hplace rfl hown hmem hnumber hlength hreader
        · refine hfollowed.other rfl (if_neg fun hboth => hsource hboth.2.symm) _ ?_ hreader
          rintro _ _ ⟨⟩
          exact hsource.symm
      · refine hfollowed.same (hlaid source) (if_neg fun hboth => hmember hboth.1.symm) ?_
        rw [s.setMember_of_ne after hmember]
    | stray m receipt after hpeer hreader =>
      rcases eq_or_ne member m with rfl | hmember
      · rw [← s.setMember_self member after] at hreader
        refine hfollowed.other rfl rfl receipt (fun peer data hreceipt heq => ?_) hreader
        rw [← heq, hpeer peer data hreceipt] at hours
        cases hours
      · refine hfollowed.same (hlaid source) rfl ?_
        rw [s.setMember_of_ne after hmember]
    | move m move after hmove hreader =>
      refine hfollowed.same (hlaid source) rfl ?_
      rcases eq_or_ne member m with rfl | hmember
      · rwa [s.setMember_self]
      · rw [s.setMember_of_ne after hmember]
  · have hstrays : strays member (past ++ [(s, act, t)]) =
        strays member past + strays member [(s, act, t)] := List.countP_append
    have hold := h.discarded (hfew hnext) member
    suffices hone : (t.members member).reader.heard.counters.discarded ≤
        (s.members member).reader.heard.counters.discarded + strays member [(s, act, t)] by omega
    cases steps_of_step hstep with
    | publish peer event p hpeer hpublish => exact Nat.le_add_right _ _
    | bring m peer place datagram after hpeer hplace hreader =>
      rcases eq_or_ne member m with rfl | hmember
      · obtain ⟨k, bytes⟩ := datagram
        obtain ⟨frame, datagrams, hown, hmem, -, hlength⟩ := h.wire hmax (hfew hnext) hplace
        obtain ⟨given, waiting, hfollows⟩ := h.followed (hfew hnext) member peer hpeer _ frame datagrams
          (layout_of_encode (State.laidOut_eq_some.1 hown).2)
          fun _ hlaid => Option.some.inj (hlaid.symm.trans hown)
        rw [s.setMember_self, hreader,
          hfollows.discarded_eq engine (s.members member).subscriptions sort hmem hlength]
        exact Nat.le_add_right _ _
      · rw [s.setMember_of_ne after hmember]
        exact Nat.le_add_right _ _
    | stray m receipt after hpeer hreader =>
      rcases eq_or_ne member m with rfl | hmember
      · rw [s.setMember_self, hreader]
        have hone : strays member [(s, .move member (.receives receipt), s.setMember member after)] = 1 := by
          simp [strays]
        rw [hone]
        exact discarded_le sort engine _ _ receipt
      · rw [s.setMember_of_ne after hmember]
        exact Nat.le_add_right _ _
    | move m move after hmove hreader =>
      rcases eq_or_ne member m with rfl | hmember
      · rw [s.setMember_self, hreader]
        exact Nat.le_add_right _ _
      · rw [s.setMember_of_ne after hmember]
        exact Nat.le_add_right _ _
  · rcases reader_step hstep member with hsame | ⟨receipt, hturn⟩
    · exact hsame ▸ h.mirrors member
    · exact hturn ▸ (h.mirrors member).turn sort engine _ receipt

theorem carried_of_run {shortMax : K → ℕ} (hmax : ∀ source, shortMax source ≤ BusUrl.maxShortMax)
    {subscriptions : ℕ → Subscriptions Regex} {acts : List (Act K)}
    (hrun : Machine.run (step ours sort engine) (start shortMax subscriptions) acts = some s) :
    Carried ours engine shortMax s
      (Machine.transitions (step ours sort engine) (start shortMax subscriptions) acts) := by
  have hcarried := Machine.run_history (P := Carried ours engine shortMax)
    (fun _ _ _ _ h hstep => h.step hmax hstep) (carried_start shortMax subscriptions) hrun
  rwa [List.nil_append] at hcarried

omit [LawfulEqOrd K] in
/-- What a member heard of a message of ours, and what came of it. -/
theorem Carried.follows {shortMax : K → ℕ} (h : Carried ours engine shortMax s past) (hfew : Few s)
    {source : K} (hours : ours source = true) (member : ℕ) {sequence : UInt32} {frame : Frame}
    {datagrams : List Bytes}
    (hlaid : (s.publishers source).laidOut sequence = some (frame, datagrams)) :
    ∃ given waiting, Follows source sequence frame datagrams (came member source past)
      (Selects engine member source frame.channel past) (s.members member).reader given waiting :=
  h.followed hfew member source hours sequence frame datagrams
    (layout_of_encode (State.laidOut_eq_some.1 hlaid).2)
    fun _ hmem => Option.some.inj (hmem.symm.trans hlaid)

omit [LawfulEqOrd K] in
/-- A number that no message is laid out for is heard of no one. -/
theorem Carried.laidOut_of_heard {shortMax : K → ℕ} (h : Carried ours engine shortMax s past)
    (hfew : Few s) {member : ℕ} {d : Delivery K}
    (hd : d ∈ (s.members member).reader.heard.delivered) (hours : ours d.peer = true) :
    ∃ frame datagrams, (s.publishers d.peer).laidOut d.sequence = some (frame, datagrams) := by
  cases hlaid : (s.publishers d.peer).laidOut d.sequence with
  | some laid => exact ⟨laid.1, laid.2, rfl⟩
  | none =>
    exfalso
    -- Any message there might be would have had to come, and what came is laid out.
    have hwhole : Layout d.sequence ⟨"A", []⟩ [wholeBytes d.sequence ⟨"A", []⟩] :=
      .whole _ (decode_eq_whole_iff.2 ⟨by decide, rfl⟩)
    obtain ⟨given, waiting, hfollows⟩ := h.followed hfew member d.peer hours _ _ _ hwhole
      fun laid hmem => by rw [hlaid] at hmem; cases hmem
    obtain ⟨n, hn, hheard, -⟩ := hfollows.heard
    have hmem : d ∈ (s.members member).reader.heardOf d.peer d.sequence :=
      List.mem_filter.2 ⟨hd, by simp⟩
    rw [hheard] at hmem
    have hpos : 0 < given := (Nat.pos_of_ne_zero (List.mem_replicate.1 hmem).1).trans_le hn
    have hcame := List.count_pos_iff.1 (hpos.trans_le (hfollows.collected.enough _ (List.mem_singleton_self _)))
    obtain ⟨k, hwire⟩ := h.wired member d.peer _ hcame
    obtain ⟨frame, datagrams, hown, -⟩ := mem_wire (h.sound _) (h.hands _) (hfew _) hwire
    have hnumber := ((h.sound d.peer).wire k _ hwire).2
    rw [hwhole.numberOf_eq (List.mem_singleton_self _)] at hnumber
    rw [Option.some.inj hnumber, hown] at hlaid
    cases hlaid

/-! ### Whatever the network does -/

/-- **A handler hears what was sent.**  Whatever the network does to datagrams, and whoever else sends,
a message that a handler hears of a publisher is the one that took its number there; it is heard no more
often than any of its datagrams came, all of which the publisher handed to its socket; and a datagram of
a publisher is never counted as one that cannot be read. -/
theorem hears_what_was_sent {shortMax : K → ℕ} (hmax : ∀ source, shortMax source ≤ BusUrl.maxShortMax)
    {subscriptions : ℕ → Subscriptions Regex} {acts : List (Act K)}
    (hrun : Machine.run (step ours sort engine) (start shortMax subscriptions) acts = some s)
    (hfew : Few s) :
    let past := Machine.transitions (step ours sort engine) (start shortMax subscriptions) acts
    ∀ member,
      (∀ d ∈ (s.members member).reader.heard.delivered, ours d.peer = true →
        ∃ p datagrams, (s.publishers d.peer).published[d.sequence.toNat]? = some p ∧ p.frame = d.frame ∧
          encode d.sequence d.frame (shortMax d.peer) = .ok datagrams ∧
          ∀ bytes ∈ datagrams, (d.sequence.toNat, bytes) ∈ (s.publishers d.peer).wire ∧
            ((s.members member).reader.heardOf d.peer d.sequence).length ≤
              (came member d.peer past).count bytes) ∧
      (s.members member).reader.heard.counters.discarded ≤ strays member past := by
  intro past member
  have hcarried := carried_of_run hmax hrun
  refine ⟨fun d hd hours => ?_, hcarried.discarded hfew member⟩
  obtain ⟨frame, datagrams, hlaid⟩ := hcarried.laidOut_of_heard hfew hd hours
  obtain ⟨given, waiting, hfollows⟩ := hcarried.follows hfew hours member hlaid
  obtain ⟨n, hn, hheard, -⟩ := hfollows.heard
  have hmem : d ∈ (s.members member).reader.heardOf d.peer d.sequence :=
    List.mem_filter.2 ⟨hd, by simp⟩
  rw [hheard] at hmem ⊢
  obtain ⟨hpos, heq⟩ := List.mem_replicate.1 hmem
  obtain ⟨hframe, hencode⟩ := State.laidOut_eq_some.1 hlaid
  rw [hcarried.limit] at hencode
  obtain ⟨p, hp, rfl⟩ := Option.map_eq_some_iff.1 (List.getElem?_map.symm.trans hframe)
  have hsame : p.frame = d.frame := (congrArg Delivery.frame heq).symm
  refine ⟨p, datagrams, hp, hsame, hsame ▸ hencode, fun bytes hbytes => ?_⟩
  have hcount := hn.trans (hfollows.collected.enough _ hbytes)
  rw [List.length_replicate]
  refine ⟨?_, hcount⟩
  obtain ⟨k, hwire⟩ := hcarried.wired member d.peer bytes
    (List.count_pos_iff.1 ((Nat.pos_of_ne_zero hpos).trans_le hcount))
  obtain ⟨hk, hnumber⟩ := (hcarried.sound d.peer).wire k bytes hwire
  rw [(layout_of_encode hencode).numberOf_eq hbytes] at hnumber
  rwa [Option.some.inj hnumber, toNat_ofNat_of_lt (hfew d.peer) hk]

/-- Two messages of one publisher, one of them in three datagrams.  The last of these comes first and
twice, and another sender comes in between. -/
def twoMessages : List (Act ℕ) :=
  twoPublishes.map (.publish 0) ++
    [.move 0 .look, .bring 0 0 3, .move 0 .look, .move 0 (.receives (.datagram 9 [76, 67])),
      .move 0 .look, .bring 0 0 0, .move 0 .look, .bring 0 0 3, .move 0 .look, .bring 0 0 1,
      .move 0 .look, .bring 0 0 2]

theorem hears_what_was_sent_of_two :
    let ours : ℕ → Bool := fun source => source = 0
    let group : State ℕ Unit := start (fun _ => 24) fun _ => ⟨[.name "A", .name "B"]⟩
    let step := step ours .insertion noPatterns
    let past := Machine.transitions step group twoMessages
    ∃ s, Machine.run step group twoMessages = some s ∧
      (s.members 0).reader.heard.delivered =
        [⟨⟨"B", [2]⟩, 0, 1⟩, ⟨⟨"A", List.replicate 30 1⟩, 0, 0⟩] ∧
      (∃ p datagrams, (s.publishers 0).published[0]? = some p ∧ p.frame = ⟨"A", List.replicate 30 1⟩ ∧
        encode 0 p.frame 24 = .ok datagrams ∧ ∀ bytes ∈ datagrams,
          ((s.members 0).reader.heardOf 0 0).length ≤ (came 0 0 past).count bytes) ∧
      (s.members 0).reader.heard.counters.discarded ≤ strays 0 past := by
  intro ours group step past
  have hend : (Machine.run step group twoMessages).map (fun s => (s.members 0).reader.heard.delivered) =
      some [⟨⟨"B", [2]⟩, 0, 1⟩, ⟨⟨"A", List.replicate 30 1⟩, 0, 0⟩] := by decide +kernel
  obtain ⟨s, hrun, hdelivered⟩ := Option.map_eq_some_iff.1 hend
  have hfew : Few s := few_of_run hrun fun _ => (by decide : 0 + twoMessages.length ≤ UInt32.size)
  obtain ⟨hheard, hdiscarded⟩ := hears_what_was_sent (fun _ => by decide) hrun hfew 0
  obtain ⟨p, datagrams, hp, hframe, hencode, hcount⟩ :=
    hheard ⟨⟨"A", List.replicate 30 1⟩, 0, 0⟩ (by rw [hdelivered]; simp) rfl
  exact ⟨s, hrun, hdelivered, ⟨p, datagrams, hp, hframe, hframe.symm ▸ hencode,
    fun bytes hbytes => (hcount bytes hbytes).2⟩, hdiscarded⟩

/-- **A message of which every datagram came is heard**, by a member whose rules selected its channel
each time one did, as long as its reassembler evicted nothing; and once only, where one of the datagrams
came once. -/
theorem hears_all_that_came {shortMax : K → ℕ} (hmax : ∀ source, shortMax source ≤ BusUrl.maxShortMax)
    {subscriptions : ℕ → Subscriptions Regex} {acts : List (Act K)}
    (hrun : Machine.run (step ours sort engine) (start shortMax subscriptions) acts = some s)
    (hfew : Few s) :
    let past := Machine.transitions (step ours sort engine) (start shortMax subscriptions) acts
    ∀ source, ours source = true → ∀ (k : ℕ) (p : Publish),
      (s.publishers source).published[k]? = some p → p.stage = .sent → ∀ member,
      Selects engine member source p.frame.channel past →
      (s.members member).reader.heard.evicted = 0 →
      (s.publishers source).handed k ⊆ came member source past →
      ⟨p.frame, source, UInt32.ofNat k⟩ ∈ (s.members member).reader.heard.delivered ∧
        ∀ bytes ∈ (s.publishers source).handed k, (came member source past).count bytes = 1 →
          (s.members member).reader.heardOf source (UInt32.ofNat k) =
            [⟨p.frame, source, UInt32.ofNat k⟩] := by
  intro past source hours k p hp hstage member hselects hevicted hall
  have hcarried := carried_of_run hmax hrun
  have hlaid := handed_of_sent (hcarried.sound source) (hcarried.hands source) (hfew source) hp hstage
  obtain ⟨given, waiting, hfollows⟩ := hcarried.follows hfew hours member hlaid
  obtain ⟨n, -, hheard, hgiven⟩ := hfollows.heard
  rw [hgiven hselects] at hheard
  have hkept := hfollows.kept ((hcarried.mirrors member).2.symm.trans hevicted)
  have hpos : 0 < given := hkept.given_pos hfollows.collected hall
  constructor
  · have hmem : (⟨p.frame, source, UInt32.ofNat k⟩ : Delivery K) ∈
        (s.members member).reader.heardOf source (UInt32.ofNat k) := by
      rw [hheard]
      exact List.mem_replicate.2 ⟨hpos.ne', rfl⟩
    exact List.mem_of_mem_filter hmem
  · intro bytes hbytes honce
    have hle := hfollows.collected.enough _ hbytes
    rw [honce] at hle
    rw [hheard, le_antisymm hle hpos]
    rfl

theorem hears_all_that_came_of_two :
    let ours : ℕ → Bool := fun source => source = 0
    let group : State ℕ Unit := start (fun _ => 24) fun _ => ⟨[.name "A", .name "B"]⟩
    let step := step ours .insertion noPatterns
    ∃ s, Machine.run step group twoMessages = some s ∧
      (s.members 0).reader.heardOf 0 0 = [⟨⟨"A", List.replicate 30 1⟩, 0, 0⟩] := by
  intro ours group step
  let past := Machine.transitions step group twoMessages
  have hend : (Machine.run step group twoMessages).any (fun s =>
      (s.publishers 0).published[0]? = some ⟨⟨"A", List.replicate 30 1⟩, 0, .sent⟩ ∧
      (s.members 0).reader.heard.evicted = 0 ∧
      (s.publishers 0).handed 0 ⊆ came 0 0 past ∧
      ∃ bytes ∈ (s.publishers 0).handed 0, (came 0 0 past).count bytes = 1) = true := by
    decide +kernel
  obtain ⟨s, hrun, hs⟩ := (Option.any_eq_true _ _).1 hend
  obtain ⟨hp, hevicted, hall, bytes, hbytes, honce⟩ := of_decide_eq_true hs
  have hfew : Few s := few_of_run hrun fun _ => (by decide : 0 + twoMessages.length ≤ UInt32.size)
  have hselects : ∀ entry ∈ past, brought 0 0 entry.1 entry.2.1 ≠ [] →
      (entry.1.members 0).subscriptions.selects noPatterns "A" = true := by decide +kernel
  obtain ⟨-, hheard⟩ := hears_all_that_came (fun _ => by decide) hrun hfew 0 rfl 0 _ hp rfl 0 hselects
    hevicted hall
  exact ⟨s, hrun, hheard bytes hbytes honce⟩

end LcmBus.Group
