import LcmBus.Wire.Log

/-!
# The events of a log that is whole

* `Entry`: an event of a log whose lengths agree with it, with any bytes for a name;
* `Entry.head_bytes` and `Entry.event_bytes`: what the reader of a log makes of one;
* `decode_entry`: **what it makes of what has come of one**, whatever bytes it holds;
* `whole`: the entries of a log that are all in front of a cut.
-/

namespace LcmBus.Log

/-- A well-formed event of a log. -/
structure Entry where
  number : Int64
  timestamp : Int64
  channel : Bytes
  payload : Bytes
  channel_pos : 0 < channel.length
  channel_le : channel.length ≤ channelMax
  payload_le : payload.length ≤ maxMessageLen

namespace Entry

variable (e : Entry)

def head : Head := ⟨e.number, e.timestamp, e.channel.length, e.payload.length⟩

/-- The bytes in front of the name. -/
def header : Bytes :=
  u32ToBe magic ++ i64ToBe e.number ++ i64ToBe e.timestamp ++
    u32ToBe (UInt32.ofNat e.channel.length) ++ u32ToBe (UInt32.ofNat e.payload.length)

def bytes : Bytes := e.header ++ e.channel ++ e.payload

/-- The event, where its name is one: text, with no NUL in it. -/
def event : Option Event :=
  match fromUtf8 e.channel with
  | none => none
  | some channel =>
    if checkChannel channel channelMax ≠ .ok () then none
    else some ⟨e.number, e.timestamp, ⟨channel, e.payload⟩⟩

@[simp] theorem length_header : e.header.length = headerLen := by simp [header, headerLen]

@[simp] theorem length_bytes : e.bytes.length = e.head.len := by
  simp [bytes, Head.len, head]
  omega

theorem readHead_bytes (r : Bytes) : readHead (e.header ++ r) = .ok (e.head, r) := by
  have hpos := e.channel_pos
  have hchannel := e.channel_le
  have hpayload := e.payload_le
  have hmax : channelMax = 999 := rfl
  have hmessage : maxMessageLen = 2 ^ 28 := rfl
  have hc : (UInt32.ofNat e.channel.length).toNat = e.channel.length :=
    UInt32.toNat_ofNat_of_lt' (by show _ < 2 ^ 32; omega)
  have hp : (UInt32.ofNat e.payload.length).toNat = e.payload.length :=
    UInt32.toNat_ofNat_of_lt' (by show _ < 2 ^ 32; omega)
  rw [readHead, header]
  simp only [List.append_assoc]
  rw [Reader.bind_of_ok (Reader.u32_append _ _), if_neg (by simp),
    Reader.bind_of_ok (Reader.i64_append _ _), Reader.bind_of_ok (Reader.i64_append _ _),
    Reader.bind_of_ok (Reader.u32_append _ _), Reader.bind_of_ok (Reader.u32_append _ _)]
  simp only [hc, hp]
  rw [if_neg (by omega), if_neg (by omega), if_neg (by omega)]
  rfl

/-- The head of an entry reads as it was written. -/
theorem head_bytes (r : Bytes) : Log.head (e.bytes ++ r) = .ok e.head := by
  have hread := e.readHead_bytes (e.channel ++ e.payload ++ r)
  rw [readHead_eq (by simp), ← List.append_assoc, ← List.append_assoc] at hread
  rw [bytes]
  cases hhead : Log.head (e.header ++ e.channel ++ e.payload ++ r) with
  | error e => rw [hhead] at hread; cases hread
  | ok found =>
    rw [hhead] at hread
    simp only [Except.map, Except.ok.injEq, Prod.mk.injEq] at hread
    rw [hread.1]

theorem headerLen_lt : headerLen < e.bytes.length := by
  rw [e.length_bytes]
  exact (len_of_head (e.head_bytes [])).1

/-- And so does the rest of it. -/
theorem event_bytes (r : Bytes) : e.head.event (e.bytes ++ r) = e.event := by
  have hname : (((e.bytes ++ r).drop headerLen).take e.head.channelLen) = e.channel := by
    rw [bytes, List.append_assoc, List.append_assoc, List.drop_left' e.length_header]
    exact List.take_left
  have hpayload : ((e.bytes ++ r).drop (headerLen + e.head.channelLen)).take e.head.payloadLen =
      e.payload := by
    rw [bytes, List.append_assoc (e.header ++ e.channel), List.drop_left' (by simp [head])]
    exact List.take_left
  rw [Head.event, event, hname, hpayload]
  rfl

end Entry

/-! ### Logs of entries -/

/-- The bytes of a log. -/
def bytesOf (entries : List Entry) : Bytes := entries.flatMap Entry.bytes

@[simp] theorem bytesOf_nil : bytesOf [] = [] := rfl

@[simp] theorem bytesOf_cons (e : Entry) (entries : List Entry) :
    bytesOf (e :: entries) = e.bytes ++ bytesOf entries := rfl

@[simp] theorem bytesOf_append (entries others : List Entry) :
    bytesOf (entries ++ others) = bytesOf entries ++ bytesOf others := List.flatMap_append

/-- The entries of a log that are all in front of a cut. -/
def whole : List Entry → ℕ → List Entry
  | [], _ => []
  | e :: entries, cut =>
    if e.bytes.length ≤ cut then e :: whole entries (cut - e.bytes.length) else []

/-- The first four bytes of an entry are the sync word. -/
theorem Entry.syncAt_bytes (e : Entry) (r : Bytes) : SyncAt (e.bytes ++ r) 0 := by
  rw [SyncAt, List.drop_zero, Entry.bytes, Entry.header]
  simp only [List.append_assoc]
  exact List.take_left' (length_u32ToBe _)

/-- And those of a log are. -/
theorem syncAt_bytesOf {entries : List Entry} (h : 4 ≤ (bytesOf entries).length) :
    SyncAt (bytesOf entries) 0 := by
  cases entries with
  | nil => simp at h
  | cons e entries => exact e.syncAt_bytes _

/-- **What has come of an entry, and of any bytes behind it, waits for more of it or has it whole**,
whatever the entry holds.  Then it is read as it was written, where a sync word is behind it. -/
theorem decode_entry {e : Entry} {r l : Bytes} (h : l <+: e.bytes ++ r) :
    (l.length < e.bytes.length ∧ ∃ n, decode l = .ok (.need n)) ∨
    ∃ r', r' <+: r ∧ l = e.bytes ++ r' ∧ e.head.event l = e.event ∧
      decode l = if Behind l e.bytes.length then .ok (e.head.decoded l)
        else .error (.badMagic (word l e.bytes.length)) := by
  by_cases hshort : l.length < headerLen
  · left
    exact ⟨hshort.trans e.headerLen_lt, _, decode_short hshort⟩
  have hlong : headerLen ≤ l.length := by omega
  have hhead : head l = .ok e.head := by
    obtain ⟨r', hr'⟩ := h
    rw [← head_append hlong r', hr', e.head_bytes]
  have hdecode := decode_of_head hlong hhead
  rw [← e.length_bytes] at hdecode
  by_cases hlen : l.length < e.bytes.length
  · rw [if_pos hlen] at hdecode
    exact .inl ⟨hlen, _, hdecode⟩
  · obtain ⟨r', rfl⟩ : e.bytes <+: l :=
      List.prefix_of_prefix_length_le (List.prefix_append _ _) h (by omega)
    rw [if_neg hlen] at hdecode
    exact .inr ⟨r', (List.prefix_append_right_inj _).1 h, rfl, e.event_bytes r', hdecode⟩

/-- Where there is a sync word behind an entry, there is one behind it in what has come. -/
theorem behind_of_part {l r r' : Bytes} (h : r' <+: r) (hr : 4 ≤ r.length → SyncAt r 0) :
    Behind (l ++ r') l.length := by
  intro h4
  rw [List.drop_left] at h4 ⊢
  have hsync := hr (h4.trans h.length_le)
  obtain ⟨rest, rfl⟩ := h
  exact (syncAt_append (by omega)).1 hsync

end LcmBus.Log
