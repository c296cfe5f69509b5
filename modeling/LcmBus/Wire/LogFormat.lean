import LcmBus.Wire.LogEntries

/-!
# The log format, both ways

What `encode` writes and what `decode` reads are one format, and the head walk of a reader agrees with
its events.

* `exists_entry_of_encode` and `encode_of_event`: what the encoder writes are the entries with a name;
* `exists_entry_of_head`: an event whose head reads, and which is all there, is an entry;
* `event_both_ways`: the encoder and the decoder, with every cut and everything behind an event;
* `peek_agrees`: what `peek` reads of a head with lines of its own, and what `decode` reads of the event.
-/

namespace LcmBus.Log

/-! ### What the encoder writes -/

theorem encode_eq_ok_iff {event : Event} {bytes : Bytes} :
    encode event = .ok bytes ↔ ValidChannel event.frame.channel channelMax ∧
      event.frame.payload.length ≤ maxMessageLen ∧
      bytes = u32ToBe magic ++ i64ToBe event.number ++ i64ToBe event.timestamp ++
        u32ToBe (UInt32.ofNat (asBytes event.frame.channel).length) ++
        u32ToBe (UInt32.ofNat event.frame.payload.length) ++ asBytes event.frame.channel ++
        event.frame.payload := by
  unfold encode
  cases hchannel : checkChannel event.frame.channel channelMax with
  | error e =>
    have hbad : ¬ ValidChannel event.frame.channel channelMax := fun h => by
      rw [checkChannel_of_valid h] at hchannel
      cases hchannel
    simp only [hbad, false_and, iff_false]
    rintro ⟨⟩
  | ok =>
    by_cases hlong : event.frame.payload.length > maxMessageLen
    · dsimp only
      rw [if_pos hlong]
      refine ⟨?_, fun h => absurd h.2.1 (not_le.2 hlong)⟩
      rintro ⟨⟩
    · dsimp only
      rw [if_neg hlong]
      constructor
      · rintro ⟨⟩
        exact ⟨checkChannel_ok_iff.1 hchannel, not_lt.1 hlong, rfl⟩
      · rintro ⟨-, -, rfl⟩
        rfl

/-- An event that has a name of an entry has its bytes. -/
theorem encode_of_event {e : Entry} {event : Event} (h : e.event = some event) :
    encode event = .ok e.bytes := by
  unfold Entry.event at h
  split at h
  · cases h
  rename_i channel hname
  split_ifs at h with hchannel
  cases h
  have hbytes := asBytes_of_fromUtf8 hname
  refine encode_eq_ok_iff.2 ⟨checkChannel_ok_iff.1 (not_not.1 hchannel), e.payload_le, ?_⟩
  rw [hbytes]
  rfl

/-- What the encoder writes is an entry, and the event is that of it. -/
theorem exists_entry_of_encode {event : Event} {bytes : Bytes} (h : encode event = .ok bytes) :
    ∃ e : Entry, e.event = some event ∧ e.bytes = bytes := by
  obtain ⟨hvalid, hpayload, rfl⟩ := encode_eq_ok_iff.1 h
  refine ⟨⟨event.number, event.timestamp, asBytes event.frame.channel, event.frame.payload,
    hvalid.length_pos, hvalid.2.2, hpayload⟩, ?_, rfl⟩
  simp [Entry.event, fromUtf8_asBytes, checkChannel_of_valid hvalid]

/-! ### What the decoder reads -/

theorem u32ToBe_word {data : Bytes} {at_ : ℕ} (h : at_ + 4 ≤ data.length) :
    u32ToBe (word data at_) = (data.drop at_).take 4 :=
  u32ToBe_fromBe (by rw [List.length_take, List.length_drop]; omega)

theorem i64ToBe_long {data : Bytes} {at_ : ℕ} (h : at_ + 8 ≤ data.length) :
    i64ToBe (long data at_) = (data.drop at_).take 8 :=
  i64ToBe_fromBe (by rw [List.length_take, List.length_drop]; omega)

/-- A head that reads is what is written for it, and keeps to the limits. -/
theorem take_headerLen_of_head {data : Bytes} (hlong : headerLen ≤ data.length) {found : Head}
    (h : head data = .ok found) :
    data.take headerLen = u32ToBe magic ++ i64ToBe found.number ++ i64ToBe found.timestamp ++
        u32ToBe (UInt32.ofNat found.channelLen) ++ u32ToBe (UInt32.ofNat found.payloadLen) ∧
      0 < found.channelLen ∧ found.channelLen ≤ channelMax ∧ found.payloadLen ≤ maxMessageLen := by
  have h28 := length_header
  unfold head at h
  dsimp only at h
  split_ifs at h with hmagic hempty hname hpayload
  cases h
  refine ⟨?_, Nat.pos_of_ne_zero hempty, not_lt.1 hname, not_lt.1 hpayload⟩
  dsimp only
  rw [← not_not.1 hmagic, UInt32.ofNat_toNat, UInt32.ofNat_toNat, u32ToBe_word (by omega),
    u32ToBe_word (by omega), u32ToBe_word (by omega), i64ToBe_long (by omega),
    i64ToBe_long (by omega), List.drop_zero, ← List.take_add, ← List.take_add, ← List.take_add,
    ← List.take_add]
  rfl

/-- An event whose head reads, and which is all there, is an entry. -/
theorem exists_entry_of_head {data : Bytes} (hlong : headerLen ≤ data.length) {found : Head}
    (h : head data = .ok found) (hlen : found.len ≤ data.length) :
    ∃ e : Entry, e.head = found ∧ e.bytes = data.take found.len := by
  obtain ⟨hheader, hpos, hchannel, hpayload⟩ := take_headerLen_of_head hlong h
  rw [Head.len] at hlen
  have hname : ((data.drop headerLen).take found.channelLen).length = found.channelLen := by
    rw [List.length_take, List.length_drop]
    omega
  have hbody : ((data.drop (headerLen + found.channelLen)).take found.payloadLen).length =
      found.payloadLen := by
    rw [List.length_take, List.length_drop]
    omega
  refine ⟨⟨found.number, found.timestamp, (data.drop headerLen).take found.channelLen,
    (data.drop (headerLen + found.channelLen)).take found.payloadLen, by omega, by omega, by omega⟩,
    ?_, ?_⟩
  · simp only [Entry.head, hname, hbody]
  · simp only [Entry.bytes, Entry.header, hname, hbody, Head.len]
    rw [← hheader, ← List.take_add, ← List.take_add]

/-- What the decoder gives is what the encoder writes. -/
theorem encode_of_decode {data : Bytes} {event : Event} {used : ℕ}
    (h : decode data = .ok (.item event used)) :
    used ≤ data.length ∧ encode event = .ok (data.take used) := by
  by_cases hshort : data.length < headerLen
  · rw [decode_short hshort] at h
    cases h
  have hlong := not_lt.1 hshort
  cases hhead : head data with
  | error e =>
    rw [decode_of_error hlong hhead] at h
    cases h
  | ok found =>
    rw [decode_of_head hlong hhead] at h
    split_ifs at h with hlen hbehind
    · cases h
    obtain ⟨e, rfl, hbytes⟩ := exists_entry_of_head hlong hhead (not_lt.1 hlen)
    have hevent : e.head.event data = e.event := by
      rw [← e.event_bytes (data.drop e.head.len), hbytes, List.take_append_drop]
    simp only [Head.decoded, hevent, Except.ok.injEq] at h
    cases hname : e.event with
    | none =>
      rw [hname] at h
      cases h
    | some found =>
      rw [hname] at h
      cases h
      exact ⟨not_lt.1 hlen, hbytes ▸ encode_of_event hname⟩

/-! ### The format, both ways -/

/-- What is behind an event decides whether it is read. -/
theorem decode_bytes_append {e : Entry} {event : Event} (h : e.event = some event) (r : Bytes) :
    decode (e.bytes ++ r) =
      if r.length < 4 ∨ u32ToBe magic <+: r then .ok (.item event e.bytes.length)
      else .error (.badMagic (u32FromBe (r.take 4))) := by
  have hlong : headerLen ≤ (e.bytes ++ r).length := by
    have := e.headerLen_lt
    rw [List.length_append]
    omega
  have hbehind : Behind (e.bytes ++ r) e.bytes.length ↔ r.length < 4 ∨ u32ToBe magic <+: r := by
    rw [Behind, List.drop_left, imp_iff_not_or, not_le, List.prefix_iff_eq_take, length_u32ToBe,
      eq_comm]
  have hword : word (e.bytes ++ r) e.bytes.length = u32FromBe (r.take 4) := by
    rw [word, List.drop_left]
  rw [decode_of_head hlong (e.head_bytes r), ← e.length_bytes, if_neg (by simp), if_congr hbehind rfl rfl,
    hword, Head.decoded, e.event_bytes, h, ← e.length_bytes]

/-- A part of an event waits for more of it, and for no more than there is of it. -/
theorem decode_part {e : Entry} {l : Bytes} (h : l <+: e.bytes) (hne : l ≠ e.bytes) :
    ∃ n, decode l = .ok (.need n) ∧ l.length < n ∧ n ≤ e.bytes.length := by
  have hlength : l.length < e.bytes.length :=
    lt_of_le_of_ne h.length_le fun heq => hne (h.eq_of_length heq)
  by_cases hshort : l.length < headerLen
  · exact ⟨_, decode_short hshort, hshort, e.headerLen_lt.le⟩
  have hlong := not_lt.1 hshort
  have hhead : head l = .ok e.head := by
    obtain ⟨rest, hrest⟩ := h
    rw [← head_append hlong rest, hrest, ← List.append_nil e.bytes, e.head_bytes]
  have hdecode := decode_of_head hlong hhead
  rw [← e.length_bytes, if_pos hlength] at hdecode
  exact ⟨_, hdecode, hlength, le_rfl⟩

/-- **The log event format is one format, both ways.**  The encoder takes the events with a name of 1
to 999 bytes without a NUL and a payload within the limit.  What it writes is read back where a sync
word, or less than four bytes, are behind it, and is torn where other bytes are; a part of it waits for
more.  And what the decoder gives is what the encoder writes for it. -/
theorem event_both_ways :
    (∀ event, (∃ bytes, encode event = .ok bytes) ↔
      ValidChannel event.frame.channel channelMax ∧ event.frame.payload.length ≤ maxMessageLen) ∧
    (∀ event bytes, encode event = .ok bytes →
      (∀ r, decode (bytes ++ r) =
        if r.length < 4 ∨ u32ToBe magic <+: r then .ok (.item event bytes.length)
        else .error (.badMagic (u32FromBe (r.take 4)))) ∧
      ∀ l, l <+: bytes → l ≠ bytes →
        ∃ n, decode l = .ok (.need n) ∧ l.length < n ∧ n ≤ bytes.length) ∧
    ∀ data event used, decode data = .ok (.item event used) →
      used ≤ data.length ∧ encode event = .ok (data.take used) := by
  refine ⟨fun event => ⟨?_, ?_⟩, fun event bytes h => ⟨fun r => ?_, fun l hl hne => ?_⟩,
    fun data event used h => encode_of_decode h⟩
  · rintro ⟨bytes, h⟩
    obtain ⟨hvalid, hpayload, -⟩ := encode_eq_ok_iff.1 h
    exact ⟨hvalid, hpayload⟩
  · rintro ⟨hvalid, hpayload⟩
    exact ⟨_, encode_eq_ok_iff.2 ⟨hvalid, hpayload, rfl⟩⟩
  · obtain ⟨e, hevent, rfl⟩ := exists_entry_of_encode h
    exact decode_bytes_append hevent r
  · obtain ⟨e, -, rfl⟩ := exists_entry_of_encode h
    exact decode_part hl hne

/-! ### The head walk -/

/-- A head that is there is read from its bytes alone. -/
theorem head_take {data : Bytes} (h : headerLen ≤ data.length) : head (data.take headerLen) = head data := by
  rw [← head_append (l := data.take headerLen) (by rw [List.length_take_of_le h]) (data.drop headerLen),
    List.take_append_drop]

/-- An error of the head is the answer to the head alone. -/
theorem peek_eq_error_iff {data : Bytes} {e : WireError} :
    peek data = .error e ↔ decode (data.take headerLen) = .error e := by
  by_cases hshort : data.length < headerLen
  · rw [List.take_of_length_le hshort.le, peek, if_pos hshort, decode_short hshort]
    simp
  have hlong := not_lt.1 hshort
  have htake : headerLen ≤ (data.take headerLen).length := (List.length_take_of_le hlong).ge
  rw [peek_eq hlong]
  cases hhead : head data with
  | error e' =>
    rw [decode_of_error htake ((head_take hlong).trans hhead)]
    simp [Except.map]
  | ok found =>
    have hlen := (len_of_head hhead).1
    rw [decode_of_head htake ((head_take hlong).trans hhead), List.length_take_of_le hlong, if_pos hlen]
    simp [Except.map]

/-- An event is of the time in its head. -/
theorem timestamp_of_event {found : Head} {data : Bytes} {event : Event}
    (h : found.event data = some event) : event.timestamp = found.timestamp := by
  unfold Head.event at h
  split at h
  · cases h
  split_ifs at h
  cases h
  rfl

/-- **The head walk and the event reader agree**, on every bytes.  `peek` has no head where the reader
waits for one, and an error where the reader answers the head alone with it.  Where it has a head, the
reader waits for the length it says, or finds no sync word there, or takes or steps over that many
bytes, at the time it says. -/
theorem peek_agrees (data : Bytes) :
    (peek data = .ok none ↔ decode data = .ok (.need headerLen)) ∧
    (peek data = .ok none ↔ data.length < headerLen) ∧
    (∀ e, peek data = .error e ↔
      decode data = .error e ∧ decode (data.take headerLen) = .error e) ∧
    ∀ found, peek data = .ok (some found) →
      if data.length < found.len then decode data = .ok (.need found.len)
      else if 4 ≤ (data.drop found.len).length ∧ (data.drop found.len).take 4 ≠ u32ToBe magic then
        decode data = .error (.badMagic (u32FromBe ((data.drop found.len).take 4)))
      else decode data = .ok (.skip found.len) ∨
        ∃ event, decode data = .ok (.item event found.len) ∧ event.timestamp = found.timestamp := by
  by_cases hshort : data.length < headerLen
  · have hpeek : peek data = .ok none := if_pos hshort
    have hdecode := decode_short hshort
    rw [hpeek, hdecode]
    simp [hshort]
  have hlong := not_lt.1 hshort
  have hpeek := peek_eq hlong
  cases hhead : head data with
  | error e =>
    have hdecode := decode_of_error hlong hhead
    have herror : peek data = .error e := by rw [hpeek, hhead]; rfl
    have halone := peek_eq_error_iff.1 herror
    rw [herror, hdecode, halone]
    simp [hshort]
  | ok read =>
    rw [hhead] at hpeek
    obtain ⟨hlen, -⟩ := len_of_head hhead
    have hdecode := decode_of_head hlong hhead
    have hwants : decode data ≠ .ok (.need headerLen) := by
      intro h
      rw [hdecode, Head.decoded] at h
      split_ifs at h
      · simp only [Except.ok.injEq, Decoded.need.injEq] at h
        omega
      · split at h <;> cases h
    refine ⟨by simp [hpeek, Except.map, hwants], by simp [hpeek, Except.map, hshort], fun e => ?_, ?_⟩
    · rw [← peek_eq_error_iff, hpeek]
      simp [Except.map]
    · rintro found hfound
      rw [hpeek] at hfound
      cases hfound
      rw [hdecode]
      dsimp only
      split_ifs with hneed hlies hbehind hbehind
      · rfl
      · exact absurd (hbehind hlies.1) hlies.2
      · rfl
      · rw [Head.decoded]
        cases hevent : read.event data with
        | none => exact .inl rfl
        | some event => exact .inr ⟨event, rfl, timestamp_of_event hevent⟩
      · exact absurd (fun h => not_not.1 fun hne => hlies ⟨h, hne⟩) hbehind

end LcmBus.Log
