import LcmBus.Wire.Basic

/-!
# The greetings of the relay framing

The eight bytes that each side of a `tcpq` connection sends first: a number that says which side it is,
and a version that nothing compares.

* `handshake` and `serverHandshake` write them, and `checkHandshake` and `checkClientHandshake` read those
  of the other side;
* `checkGreeting_ok_iff`: what is read, of any bytes;
* `checkHandshake_serverHandshake`, `checkClientHandshake_handshake`: the two sides read each other.
-/

namespace LcmBus.Tcpq

def magicServer : UInt32 := 0x287617fa

def magicClient : UInt32 := 0x287617fb

def protocolVersion : UInt32 := 0x0100

/-- The length of a greeting. -/
def greetingLen : ℕ := 8

def greeting (magic : UInt32) : Bytes := u32ToBe magic ++ u32ToBe protocolVersion

/-- The bytes a client sends a relay when it connects. -/
def handshake : Bytes := greeting magicClient

/-- The bytes a relay sends a client that it accepted. -/
def serverHandshake : Bytes := greeting magicServer

/-- The version in a greeting of the side that `magic` names. -/
def readGreeting (magic : UInt32) : Reader UInt32 := do
  let found ← Reader.u32
  let version ← Reader.u32
  if found ≠ magic then throw (.badMagic found)
  return version

def checkGreeting (magic : UInt32) (reply : Bytes) : Except WireError UInt32 :=
  (readGreeting magic reply).map Prod.fst

def checkHandshake (reply : Bytes) : Except WireError UInt32 := checkGreeting magicServer reply

def checkClientHandshake (reply : Bytes) : Except WireError UInt32 := checkGreeting magicClient reply

@[simp] theorem length_greeting (magic : UInt32) : (greeting magic).length = greetingLen := by
  simp [greeting, greetingLen]

/-- What is read of a greeting of some other side. -/
theorem readGreeting_eq {magic found version : UInt32} {rest : Bytes} :
    readGreeting magic (u32ToBe found ++ (u32ToBe version ++ rest)) =
      if found = magic then .ok (version, rest) else .error (.badMagic found) := by
  rw [readGreeting, Reader.bind_of_ok (Reader.u32_append _ _), Reader.bind_of_ok (Reader.u32_append _ _)]
  by_cases h : found = magic
  · rw [if_pos h, h]
    simp
    rfl
  · rw [if_neg h]
    simp [h]
    rfl

theorem checkGreeting_append {magic found version : UInt32} {rest : Bytes} :
    checkGreeting magic (u32ToBe found ++ (u32ToBe version ++ rest)) =
      if found = magic then .ok version else .error (.badMagic found) := by
  rw [checkGreeting, readGreeting_eq]
  split <;> rfl

/-- Eight bytes are a number and a version. -/
theorem exists_words {reply : Bytes} (h : reply.length = greetingLen) :
    ∃ found version, reply = u32ToBe found ++ u32ToBe version := by
  refine ⟨u32FromBe (reply.take 4), u32FromBe (reply.drop 4), ?_⟩
  have hlength : reply.length = 8 := h
  rw [u32ToBe_fromBe (by simp [hlength]), u32ToBe_fromBe (by simp [hlength]), List.take_append_drop]

theorem u32ToBe_inj {v w : UInt32} : u32ToBe v = u32ToBe w ↔ v = w := by
  constructor
  · intro h
    rw [← u32FromBe_toBe v, h, u32FromBe_toBe]
  · exact congrArg u32ToBe

/-- **A greeting is accepted for its first four bytes**, whatever its version. -/
theorem checkGreeting_ok_iff {magic version : UInt32} {reply : Bytes} (h : reply.length = greetingLen) :
    checkGreeting magic reply = .ok version ↔ reply = u32ToBe magic ++ u32ToBe version := by
  obtain ⟨found, version', rfl⟩ := exists_words h
  have hcheck := @checkGreeting_append magic found version' []
  rw [List.append_nil] at hcheck
  rw [hcheck]
  constructor
  · intro hok
    split_ifs at hok with hmagic
    cases hok
    rw [hmagic]
  · intro heq
    obtain ⟨hmagic, hversion⟩ := List.append_inj heq (by simp)
    rw [if_pos (u32ToBe_inj.1 hmagic), u32ToBe_inj.1 hversion]

/-- It is refused with the number that it begins with. -/
theorem checkGreeting_error {magic : UInt32} {reply : Bytes} {e : WireError}
    (h : reply.length = greetingLen) (hcheck : checkGreeting magic reply = .error e) :
    ∃ found version, reply = u32ToBe found ++ u32ToBe version ∧ found ≠ magic ∧ e = .badMagic found := by
  obtain ⟨found, version, rfl⟩ := exists_words h
  have heq := @checkGreeting_append magic found version []
  rw [List.append_nil, hcheck] at heq
  split_ifs at heq with hmagic
  exact ⟨found, version, rfl, hmagic, Except.error.inj heq⟩

theorem checkGreeting_greeting (magic : UInt32) : checkGreeting magic (greeting magic) = .ok protocolVersion :=
  (checkGreeting_ok_iff (length_greeting magic)).2 rfl

/-- The two sides read each other. -/
theorem checkHandshake_serverHandshake : checkHandshake serverHandshake = .ok protocolVersion :=
  checkGreeting_greeting magicServer

theorem checkClientHandshake_handshake : checkClientHandshake handshake = .ok protocolVersion :=
  checkGreeting_greeting magicClient

/-- And no side reads one of its own. -/
example : checkHandshake handshake = .error (.badMagic magicClient) := by decide +kernel

end LcmBus.Tcpq
