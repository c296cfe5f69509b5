import LcmBus.Bus.ReadBuffer

/-!
# The addresses of a relay

`addresses_of` and `connect_within` of `relay.rs`, which dial the addresses that a name gives one behind
another, and hold all of them to one deadline.

* `World`: the resolver, the sockets and the clock, which are not of this crate; `World.Keeps`: how far
  behind its time a call can be;
* `connectWithin`: the loop over the addresses; `attempts`: what it tried;
* `attempts_fair`: none takes the time of another;
* `reaches_what_answers`: what comes of it.

Times are in nanoseconds.
-/

namespace LcmBus.Connect

variable {A S : Type}

/-- What the loop calls, with the time behind each call. -/
structure World (A S : Type) where
  toSocketAddrs : String → ℕ → Except IoError (List A) × ℕ
  connectTimeout : A → (now share : ℕ) → Except IoError S × ℕ
  /-- The time at which the thread looks at the clock, behind a moment. -/
  look : ℕ → ℕ

/-- A thread looks at the clock soon, and a socket that gives up does so soon behind the time it was
given. -/
structure World.Keeps (w : World A S) (slack : ℕ) : Prop where
  forward : ∀ now, now ≤ w.look now
  soon : ∀ now, w.look now ≤ now + slack
  back : ∀ candidate now share, w.look (w.connectTimeout candidate now share).2 ≤ now + share + slack

/-- A relay that accepts the connection and then says nothing must not hold the caller. -/
def connectTimeout : ℕ := 10 * 10 ^ 9

inductive ConnectError
  | io (e : IoError)
  /-- `AddrNotAvailable`. -/
  | noAddress (text : String)
  /-- `TimedOut`. -/
  | noAnswer (text : String)
  deriving DecidableEq, Repr

/-- The addresses that a name gives, and the deadline for the rest of the open: a resolver that is slow
takes no time from the relay. -/
def addressesOf (w : World A S) (address : String) (now : ℕ) :
    Except ConnectError (List A × ℕ) × ℕ :=
  match w.toSocketAddrs address now with
  | (.error e, now) => (.error (.io e), now)
  | (.ok found, now) =>
    if found.isEmpty then (.error (.noAddress s!"`{address}` gives no address"), now)
    else (.ok (found, w.look now + connectTimeout), w.look now)

/-- The share of the time that is left, for the first of so many addresses. -/
def shareOf (deadline now count : ℕ) : ℕ := (deadline - now) / (count % 2 ^ 32)

/-- `connect_within`, with the addresses that are left, the time behind the one before and its
refusal. -/
def connectWithin (w : World A S) (address : String) (deadline : ℕ) :
    List A → ℕ → Option IoError → Except ConnectError S × ℕ
  | [], before, refusal => (.error (given refusal), before)
  | candidate :: rest, before, refusal =>
    let now := w.look before
    let share := shareOf deadline now (rest.length + 1)
    if share = 0 then (.error (given refusal), now)
    else match w.connectTimeout candidate now share with
      | (.ok stream, behind) => (.ok stream, behind)
      | (.error e, behind) => connectWithin w address deadline rest behind (some e)
where
  given (refusal : Option IoError) : ConnectError :=
    refusal.elim (.noAnswer s!"`{address}` answered from no address in time") .io

/-- The open, as far as the stream. -/
def connect (w : World A S) (address : String) (now : ℕ) : Except ConnectError S × ℕ :=
  match addressesOf w address now with
  | (.error e, now) => (.error e, now)
  | (.ok (found, deadline), now) => connectWithin w address deadline found now none

/-- An address that was tried, when, and for how long. -/
structure Attempt (A : Type) where
  candidate : A
  now : ℕ
  share : ℕ
  deriving DecidableEq, Repr

/-- What came of it. -/
def Attempt.answer (w : World A S) (attempt : Attempt A) : Except IoError S :=
  (w.connectTimeout attempt.candidate attempt.now attempt.share).1

/-- The addresses that `connectWithin` tries. -/
def attempts (w : World A S) (deadline : ℕ) : List A → ℕ → List (Attempt A)
  | [], _ => []
  | candidate :: rest, before =>
    let now := w.look before
    let share := shareOf deadline now (rest.length + 1)
    if share = 0 then []
    else ⟨candidate, now, share⟩ :: match w.connectTimeout candidate now share with
      | (.ok _, _) => []
      | (.error _, behind) => attempts w deadline rest behind

/-! ### The shares -/

variable {w : World A S} {slack deadline now before fair : ℕ} {address : String} {found rest : List A}
  {refusal : Option IoError}

theorem shareOf_eq {count : ℕ} (h : count < 2 ^ 32) :
    shareOf deadline now count = (deadline - now) / count := by
  rw [shareOf, Nat.mod_eq_of_lt h]

theorem shareOf_le {count : ℕ} : shareOf deadline now count ≤ deadline - now := Nat.div_le_self _ _

/-- The time that so many addresses need, for each to have a fair share. -/
def room (fair slack count : ℕ) : ℕ := (fair + slack * (count - 1)) * count

/-- What is left behind an address is room for the others. -/
theorem room_of_room (hcount : rest.length + 1 < 2 ^ 32)
    (hroom : room fair slack (rest.length + 1) ≤ deadline - now) {later : ℕ}
    (hlater : later ≤ now + shareOf deadline now (rest.length + 1) + slack) :
    fair ≤ shareOf deadline now (rest.length + 1) ∧ room fair slack rest.length ≤ deadline - later := by
  rw [shareOf_eq hcount] at hlater ⊢
  set share := (deadline - now) / (rest.length + 1) with hshare
  have hfair : fair + slack * rest.length ≤ share := (Nat.le_div_iff_mul_le (Nat.succ_pos _)).2 hroom
  refine ⟨(Nat.le_add_right _ _).trans hfair, ?_⟩
  cases hlength : rest.length with
  | zero => exact Nat.zero_le _
  | succ others =>
    -- The slack of the others pays for this one's.
    have hmul : share * (others + 1) + share ≤ deadline - now := by
      rw [← Nat.mul_succ, ← hlength]
      exact Nat.div_mul_le_self _ _
    have hrest : (fair + slack * (others + 1)) * (others + 1) ≤ share * (others + 1) :=
      Nat.mul_le_mul_right _ (hlength ▸ hfair)
    have hpays : room fair slack (others + 1) + slack ≤ (fair + slack * (others + 1)) * (others + 1) := by
      have hmore : (fair + slack * (others + 1)) * (others + 1) =
          (fair + slack * others) * (others + 1) + slack * (others + 1) := by ring
      rw [room, Nat.add_sub_cancel, hmore]
      exact Nat.add_le_add_left (Nat.le_mul_of_pos_right _ (Nat.succ_pos _)) _
    omega

/-- What holds of the addresses tried, where each can have a fair share. -/
structure Fair (w : World A S) (deadline fair : ℕ) (found : List A) (tried : List (Attempt A)) : Prop where
  order : tried.map Attempt.candidate <+: found
  share : ∀ attempt ∈ tried, fair ≤ attempt.share ∧ attempt.now + attempt.share ≤ deadline
  /-- All but the last one refused. -/
  refused : ∀ attempt ∈ tried.dropLast, ∃ e, attempt.answer w = .error e

/-- A try of the first address, where it can have a fair share. -/
theorem attempts_cons (w : World A S) (candidate : A) (hpos : 0 < fair) (hcount : rest.length + 1 < 2 ^ 32)
    (hroom : room fair slack (rest.length + 1) ≤ deadline - w.look before) :
    let now := w.look before
    let share := shareOf deadline now (rest.length + 1)
    share ≠ 0 ∧ attempts w deadline (candidate :: rest) before =
      ⟨candidate, now, share⟩ :: match w.connectTimeout candidate now share with
        | (.ok _, _) => []
        | (.error _, behind) => attempts w deadline rest behind := by
  intro now share
  have hne : share ≠ 0 := (hpos.trans_le (room_of_room hcount hroom (Nat.zero_le _)).1).ne'
  exact ⟨hne, if_neg hne⟩

/-- A call is back in time for the next look at the clock. -/
theorem World.Keeps.behind (h : w.Keeps slack) {candidate : A} {share behind : ℕ} {answer : Except IoError S}
    (hanswer : w.connectTimeout candidate now share = (answer, behind)) :
    behind ≤ w.look behind ∧ w.look behind ≤ now + share + slack := by
  have hback := h.back candidate now share
  rw [hanswer] at hback
  exact ⟨h.forward behind, hback⟩

/-- **No address takes the time of another.** -/
theorem attempts_fair (hkeeps : w.Keeps slack) (hpos : 0 < fair) (hcount : found.length < 2 ^ 32)
    (hroom : room fair slack found.length ≤ deadline - w.look before) :
    Fair w deadline fair found (attempts w deadline found before) := by
  induction found generalizing before with
  | nil => exact ⟨List.prefix_rfl, nofun, nofun⟩
  | cons candidate rest ih =>
    obtain ⟨hne, hattempts⟩ := attempts_cons w candidate hpos hcount hroom
    set now := w.look before with hnow
    set share := shareOf deadline now (rest.length + 1) with hshare
    have hfirst : fair ≤ share ∧ now + share ≤ deadline := by
      refine ⟨(room_of_room hcount hroom (Nat.zero_le _)).1, ?_⟩
      have : share ≤ deadline - now := shareOf_le
      omega
    rw [hattempts]
    rcases hanswer : w.connectTimeout candidate now share with ⟨answer, behind⟩
    cases answer with
    | ok stream => exact ⟨⟨rest, rfl⟩, by simpa using hfirst, by simp⟩
    | error e =>
      have hrest := ih (by simp at hcount; omega) (room_of_room hcount hroom (hkeeps.behind hanswer).2).2
      constructor
      · obtain ⟨more, hmore⟩ := hrest.order
        exact ⟨more, by simp [hmore]⟩
      · intro attempt hattempt
        rcases List.mem_cons.1 hattempt with rfl | hattempt
        · exact hfirst
        · exact hrest.share attempt hattempt
      · intro attempt hattempt
        change attempt ∈ (_ :: attempts w deadline rest behind).dropLast at hattempt
        cases htried : attempts w deadline rest behind with
        | nil =>
          rw [htried] at hattempt
          cases hattempt
        | cons next others =>
          rw [htried, List.dropLast_cons_cons] at hattempt
          rcases List.mem_cons.1 hattempt with rfl | hattempt
          · exact ⟨e, by rw [Attempt.answer, hanswer]⟩
          · exact hrest.refused attempt (htried ▸ hattempt)

/-! ### What comes of it -/

/-- The stream of the address that answered, or what the last of them refused with. -/
theorem connectWithin_cases (address : String) (refusal : Option IoError) (hpos : 0 < fair)
    (hkeeps : w.Keeps slack) (hcount : found.length < 2 ^ 32)
    (hroom : room fair slack found.length ≤ deadline - w.look before) :
    (∃ stream last, (attempts w deadline found before).getLast? = some last ∧
      last.answer w = .ok stream ∧ (connectWithin w address deadline found before refusal).1 = .ok stream) ∨
    ((attempts w deadline found before).map Attempt.candidate = found ∧
      (∀ attempt ∈ attempts w deadline found before, ∃ e, attempt.answer w = .error e) ∧
      ∃ e, (connectWithin w address deadline found before refusal).1 =
          .error (connectWithin.given address e) ∧
        (attempts w deadline found before = [] → e = refusal) ∧
        ∀ last, (attempts w deadline found before).getLast? = some last →
          ∃ cause, last.answer w = .error cause ∧ e = some cause) := by
  induction found generalizing before refusal with
  | nil => exact .inr ⟨rfl, nofun, refusal, rfl, fun _ => rfl, nofun⟩
  | cons candidate rest ih =>
    obtain ⟨hne, hattempts⟩ := attempts_cons w candidate hpos hcount hroom
    set now := w.look before with hnow
    set share := shareOf deadline now (rest.length + 1) with hshare
    rw [hattempts, connectWithin, if_neg hne]
    rcases hanswer : w.connectTimeout candidate now share with ⟨answer, behind⟩
    have hfound : (⟨candidate, now, share⟩ : Attempt A).answer w = answer := by rw [Attempt.answer, hanswer]
    cases answer with
    | ok stream => exact .inl ⟨stream, _, rfl, hfound, rfl⟩
    | error e =>
      have hleft := (room_of_room hcount hroom (hkeeps.behind hanswer).2).2
      rcases ih (some e) (by simp at hcount; omega) hleft with
        ⟨stream, last, hlast, hok, hconnect⟩ | ⟨hall, hrefused, e', hconnect, hnone, hlast⟩
      · exact .inl ⟨stream, last, by rw [List.getLast?_cons, hlast]; rfl, hok, hconnect⟩
      · refine .inr ⟨by rw [List.map_cons, hall], ?_, e', hconnect, nofun, ?_⟩
        · intro attempt hattempt
          rcases List.mem_cons.1 hattempt with rfl | hattempt
          · exact ⟨e, hfound⟩
          · exact hrefused attempt hattempt
        · intro last hlast'
          rw [List.getLast?_cons] at hlast'
          cases htried : (attempts w deadline rest behind).getLast? with
          | some found =>
            rw [htried] at hlast'
            cases hlast'
            exact hlast _ htried
          | none =>
            rw [htried] at hlast'
            cases hlast'
            exact ⟨e, hfound, hnone (List.getLast?_eq_none_iff.1 htried)⟩

/-- The loop is over by its deadline, but for what the last call was late. -/
theorem connectWithin_le (hkeeps : w.Keeps slack) (hbefore : w.look before ≤ deadline + slack) :
    (connectWithin w address deadline found before refusal).2 ≤ deadline + slack := by
  induction found generalizing before refusal with
  | nil => exact (hkeeps.forward before).trans hbefore
  | cons candidate rest ih =>
    rw [connectWithin]
    split
    · exact hbefore
    · rename_i hshare
      rcases hanswer : w.connectTimeout candidate (w.look before)
        (shareOf deadline (w.look before) (rest.length + 1)) with ⟨answer, behind⟩
      obtain ⟨hforward, hback⟩ := hkeeps.behind hanswer
      have hlook : w.look behind ≤ deadline + slack := by
        have : shareOf deadline (w.look before) (rest.length + 1) ≤ deadline - w.look before := shareOf_le
        omega
      cases answer with
      | ok stream => exact hforward.trans hlook
      | error e => exact ih hlook

/-- Ten seconds are room for all of them, where the slack of all is less than a share. -/
theorem room_of_slack (hkeeps : w.Keeps slack) (later : ℕ) {count : ℕ} (hcount : 0 < count)
    (hslack : slack * count < connectTimeout / count) :
    room (connectTimeout / count - slack * count) slack count ≤
      w.look later + connectTimeout - w.look (w.look later) := by
  have hsoon := hkeeps.soon (w.look later)
  have hshare : connectTimeout / count - slack * count + slack * (count - 1) =
      connectTimeout / count - slack := by
    have hmul : slack * count = slack * (count - 1) + slack := by
      rw [← Nat.mul_succ, Nat.succ_eq_add_one, Nat.sub_add_cancel hcount]
    omega
  have hall : connectTimeout / count * count ≤ connectTimeout := Nat.div_mul_le_self _ _
  have hone : slack ≤ slack * count := Nat.le_mul_of_pos_right _ hcount
  rw [room, hshare, Nat.sub_mul]
  omega

/-- **An address that answers is reached, whatever the others do.**  A name that gives addresses gives each
of them, in their order, its share of ten seconds, but for what the calls before it were late; the loop is
over by the deadline, but for what its last call was late.  Where the calls are not so late that they use up
a share, the addresses are all tried but for those behind one that answered: an address that answers within
that share is reached though every other one is deaf, and what comes back otherwise is what the last one
refused with. -/
theorem reaches_what_answers (hkeeps : w.Keeps slack) {later : ℕ}
    (hresolve : w.toSocketAddrs address now = (.ok found, later)) (hfound : found ≠ [])
    (hcount : found.length < 2 ^ 32) :
    let tried := attempts w (w.look later + connectTimeout) found (w.look later)
    let fair := connectTimeout / found.length - slack * found.length
    (connect w address now).2 ≤ w.look later + connectTimeout + slack ∧
    (slack * found.length < connectTimeout / found.length →
      (∀ attempt ∈ tried, fair ≤ attempt.share) ∧
      ((∃ stream last, tried.map Attempt.candidate <+: found ∧ tried.getLast? = some last ∧
          last.answer w = .ok stream ∧ (connect w address now).1 = .ok stream) ∨
        (tried.map Attempt.candidate = found ∧ ∃ last cause, tried.getLast? = some last ∧
          last.answer w = .error cause ∧ (connect w address now).1 = .error (.io cause))) ∧
      ((∃ candidate ∈ found, ∀ began share, fair ≤ share →
          ∃ stream, (w.connectTimeout candidate began share).1 = .ok stream) →
        ∃ stream, (connect w address now).1 = .ok stream)) := by
  intro tried fair
  have hconnect : connect w address now =
      connectWithin w address (w.look later + connectTimeout) found (w.look later) none := by
    rw [connect, addressesOf, hresolve]
    simp [hfound]
  rw [hconnect]
  refine ⟨connectWithin_le hkeeps ?_, fun hslack => ?_⟩
  · exact (hkeeps.soon _).trans (Nat.add_le_add_right (Nat.le_add_right _ _) _)
  have hpos : 0 < fair := Nat.sub_pos_of_lt hslack
  have hroom := room_of_slack hkeeps later (List.length_pos_of_ne_nil hfound) hslack
  have hshares := attempts_fair hkeeps hpos hcount hroom
  have hcases := connectWithin_cases address none hpos hkeeps hcount hroom
  refine ⟨fun attempt hattempt => (hshares.share attempt hattempt).1, ?_, ?_⟩
  · rcases hcases with ⟨stream, last, hlast, hok, hanswer⟩ | ⟨hall, hrefused, e, hanswer, -, hlast⟩
    · exact .inl ⟨stream, last, hshares.order, hlast, hok, hanswer⟩
    · have hne : tried ≠ [] := fun hnil => hfound (hall.symm.trans (congrArg _ hnil))
      have hsome := List.getLast?_eq_some_getLast hne
      obtain ⟨cause, hcause, rfl⟩ := hlast _ hsome
      exact .inr ⟨hall, _, cause, hsome, hcause, hanswer⟩
  · rintro ⟨candidate, hmem, hgood⟩
    rcases hcases with ⟨stream, -, -, -, hanswer⟩ | ⟨hall, hrefused, -⟩
    · exact ⟨stream, hanswer⟩
    · rw [← hall] at hmem
      obtain ⟨attempt, hattempt, rfl⟩ := List.mem_map.1 hmem
      obtain ⟨e, he⟩ := hrefused attempt hattempt
      obtain ⟨stream, hstream⟩ := hgood attempt.now attempt.share (hshares.share attempt hattempt).1
      exact absurd (he.symm.trans hstream) nofun

/-- A name of three addresses: one that is deaf, and given up on twenty milliseconds behind its time, one
that refuses, and one that answers in a second. -/
def threeAddresses : World ℕ String where
  toSocketAddrs _ now := (.ok [0, 1, 2], now + 5 * 10 ^ 9)
  connectTimeout candidate now share :=
    if candidate = 0 then (.error .timedOut, now + share + 2 * 10 ^ 7)
    else if candidate = 1 then (.error .other, now + 10 ^ 6)
    else if share < 10 ^ 9 then (.error .timedOut, now + share + 2 * 10 ^ 7) else (.ok "relay", now + 10 ^ 9)
  look now := now + 10 ^ 6

/-- The last one is reached, with six seconds and a half to spare for it. -/
theorem reaches_what_answers_of_threeAddresses : ∃ stream,
    (connect threeAddresses "relay:7700" 0).1 = .ok stream ∧
      (connect threeAddresses "relay:7700" 0).2 ≤ 5 * 10 ^ 9 + 10 ^ 6 + connectTimeout + 5 * 10 ^ 7 := by
  have hkeeps : threeAddresses.Keeps (5 * 10 ^ 7) := by
    refine ⟨fun now => Nat.le_add_right _ _, fun now => ?_, fun candidate now share => ?_⟩
    · exact Nat.add_le_add_left (by decide) _
    · unfold threeAddresses
      dsimp only
      split_ifs <;> dsimp only <;> omega
  have hresolve : threeAddresses.toSocketAddrs "relay:7700" 0 = (.ok [0, 1, 2], 5 * 10 ^ 9) := rfl
  obtain ⟨hle, hall⟩ := reaches_what_answers hkeeps hresolve (by simp) (by decide)
  obtain ⟨-, -, hreaches⟩ := hall (by decide)
  have hgood : ∀ now share, connectTimeout / 3 - 5 * 10 ^ 7 * 3 ≤ share →
      (threeAddresses.connectTimeout 2 now share).1 = .ok "relay" := by
    intro now share hshare
    have hlong : ¬ share < 10 ^ 9 := Nat.not_lt.2 (le_trans (by decide) hshare)
    change (if share < 10 ^ 9 then _ else _ : Except IoError String × ℕ).1 = _
    rw [if_neg hlong]
  obtain ⟨stream, hstream⟩ :=
    hreaches ⟨2, by simp, fun now share hshare => ⟨"relay", hgood now share hshare⟩⟩
  exact ⟨stream, hstream, hle⟩

end LcmBus.Connect
