import LcmBus.Bus.Subscriptions
import LcmBus.Wire.Tcpq

/-!
# The relay framing, as a format

What the two readers of a stream answer, against what comes behind, against each other, and against
the encoders.

* `Settles`: what comes behind an answer does not change it, and a wait is for as much as it says;
  `settles_decoders`: so it is with the two readers;
* `publish_both_ways`: a frame is read where it was written, and the two readers agree on it;
* `ReadsBack` and `readsBack_forARelay`: a subscription is read where its text is no longer than a
  name may be.
-/

namespace LcmBus

theorem answer_injective {α : Type} :
    Function.Injective (answer : Except WireError (Decoded α) → _) := by
  rintro (e | (⟨item, used⟩ | bytes | bytes)) (e' | (⟨item', used'⟩ | bytes' | bytes')) h <;>
    simp_all [answer]

/-- What an item of one kind is as an item of the other. -/
def Decoded.map {α β : Type} (f : α → β) : Decoded α → Decoded β
  | .item found used => .item (f found) used
  | .need bytes => .need bytes
  | .skip bytes => .skip bytes

namespace Tcpq

open Incremental

/-! ### What comes behind -/

/-- What a reader answers on the bytes that have come, it answers whatever comes behind them, and it
waits until as many have come as it says. -/
structure Settles {α : Type} (decode : Bytes → Except WireError (Decoded α)) : Prop where
  append : ∀ data, (∀ n, decode data ≠ .ok (.need n)) → ∀ more, decode (data ++ more) = decode data
  item_bounds : ∀ data item used, decode data = .ok (.item item used) →
    head ≤ used ∧ used ≤ data.length
  skip_bounds : ∀ data used, decode data = .ok (.skip used) → head ≤ used ∧ used ≤ data.length
  need_bounds : ∀ data n, decode data = .ok (.need n) → data.length < n ∧ n ≤ frameMax
  need_append : ∀ data n, decode data = .ok (.need n) → ∀ more, (data ++ more).length < n →
    decode (data ++ more) = .ok (.need n)
  need_over : ∀ data n, decode data = .ok (.need n) → ∀ more, n ≤ (data ++ more).length →
    decode (data ++ more) ≠ .ok (.need n)

/-- A reader that is a plan settles. -/
theorem settles_of_plan {α : Type} {decode : Bytes → Except WireError (Decoded α)}
    {plan : Plan UInt8 (Option α) WireError} (hplan : ∀ data, answer (decode data) = plan.run data)
    (hfits : plan.Fits frameMax 0) (hleast : plan.AtLeast head) : Settles decode := by
  have htake : ∀ data found used, plan.run data = .take found used → head ≤ used ∧ used ≤ data.length :=
    fun data found used hrun => ⟨hleast.of_run hrun, (hfits.take_bounds (Nat.zero_le _) hrun).2⟩
  have hneed : ∀ {data n}, decode data = .ok (.need n) → plan.run data = .need n := fun h => by
    rw [← hplan, h, answer]
  constructor
  · intro data h more
    apply answer_injective
    rw [hplan, hplan]
    refine plan.run_append (fun n hn => h n ?_) more
    rw [← hplan] at hn
    exact answer_injective hn
  · intro data item used h
    exact htake data (some item) used (by rw [← hplan, h, answer])
  · intro data used h
    exact htake data none used (by rw [← hplan, h, answer])
  · intro data n h
    exact ⟨Plan.need_gt (hneed h), hfits.need_le (hneed h)⟩
  · intro data n h more hmore
    apply answer_injective
    rw [hplan]
    exact Plan.need_append (hneed h) hmore
  · intro data n h more hmore hstill
    have hgt := Plan.need_gt (hneed hstill)
    omega

theorem atLeast_bodyPlan {α : Type} (found : Frame → α) (channelLen : ℕ) :
    (bodyPlan found channelLen).AtLeast head := by
  intro data _
  dsimp only
  split_ifs
  · trivial
  · intro frame _
    unfold frameEnd
    split
    · simp only [Plan.AtLeast]
      omega
    · split_ifs <;> (simp only [Plan.AtLeast]; omega)

theorem atLeast_framePlan : framePlan.AtLeast head := by
  intro data _
  dsimp only
  split_ifs
  · trivial
  · trivial
  · exact atLeast_bodyPlan id _

theorem atLeast_requestPlan : requestPlan.AtLeast head := by
  intro data _
  dsimp only
  split_ifs
  · trivial
  · trivial
  · intro pattern _
    unfold patternEnd
    split <;> exact Nat.le_add_right _ _
  · exact atLeast_bodyPlan Request.publish _

/-- **The stream decoders are stable under extension.** -/
theorem settles_decoders : Settles decode ∧ Settles decodeRequest :=
  ⟨settles_of_plan answer_decode fits_framePlan atLeast_framePlan,
    settles_of_plan answer_decodeRequest fits_requestPlan atLeast_requestPlan⟩

/-! ### A publish frame, both ways -/

/-- The bytes of a publish frame. -/
def layout (frame : Frame) : Bytes :=
  u32ToBe messageTypePublish ++ lengthPrefixed (asBytes frame.channel) ++ lengthPrefixed frame.payload

theorem publish_eq_ok_iff {frame : Frame} {bytes : Bytes} :
    publish frame = .ok bytes ↔ ValidChannel frame.channel maxChannelLen ∧
      frame.payload.length ≤ maxMessageLen ∧ bytes = layout frame := by
  unfold publish
  cases hchannel : checkChannel frame.channel maxChannelLen with
  | error e =>
    have hbad : ¬ ValidChannel frame.channel maxChannelLen := fun h => by
      rw [checkChannel_of_valid h] at hchannel
      cases hchannel
    simp only [hbad, false_and, iff_false]
    rintro ⟨⟩
  | ok =>
    by_cases hlong : frame.payload.length > maxMessageLen
    · rw [if_pos hlong]
      refine ⟨?_, fun h => absurd h.2.1 (not_le.2 hlong)⟩
      rintro ⟨⟩
    · rw [if_neg hlong]
      constructor
      · rintro ⟨⟩
        exact ⟨checkChannel_ok_iff.1 hchannel, not_lt.1 hlong, rfl⟩
      · rintro ⟨-, -, rfl⟩
        rfl

theorem length_lengthPrefixed (bytes : Bytes) : (lengthPrefixed bytes).length = 4 + bytes.length := by
  simp [lengthPrefixed]

theorem length_layout (frame : Frame) :
    (layout frame).length = head + (asBytes frame.channel).length + 4 + frame.payload.length := by
  simp [layout, length_lengthPrefixed, length_head]
  omega

variable {α : Type}

/-- What is found at the end of a publish frame whose head has been read. -/
theorem of_run_bodyPlan {found : Frame → α} {channelLen : ℕ} {data : Bytes} {item : α} {used : ℕ}
    (hrun : (bodyPlan found channelLen).run data = .take (some item) used) :
    ∃ frame, item = found frame ∧ ValidChannel frame.channel maxChannelLen ∧
      frame.payload.length ≤ maxMessageLen ∧ used ≤ data.length ∧
      used = head + channelLen + 4 + frame.payload.length ∧
      asBytes frame.channel = (data.drop head).take channelLen ∧
      frame.payload.length = (word data (head + channelLen)).toNat ∧
      frame.payload = (data.drop (head + channelLen + 4)).take frame.payload.length := by
  rw [bodyPlan] at hrun
  by_cases hhead : data.length < head + channelLen + 4
  · simp only [Plan.run, if_pos hhead] at hrun
    cases hrun
  rw [Plan.run_wait_of_le (by omega), word_take (by omega)] at hrun
  by_cases hlong : (word data (head + channelLen)).toNat > maxMessageLen
  · simp only [if_pos hlong] at hrun
    cases hrun
  simp only [if_neg hlong] at hrun
  by_cases hframe : data.length < head + channelLen + 4 + (word data (head + channelLen)).toNat
  · simp only [Plan.run, if_pos hframe] at hrun
    cases hrun
  rw [Plan.run_wait_of_le (by omega), frameEnd, List.drop_take, List.take_take,
    Nat.min_eq_left (by omega)] at hrun
  cases hname : fromUtf8 ((data.drop head).take channelLen) with
  | none =>
    rw [hname] at hrun
    cases hrun
  | some channel =>
    rw [hname] at hrun
    dsimp only at hrun
    split_ifs at hrun with hchannel
    · cases hrun
    · cases hrun
      have hpayload : ((List.take (head + channelLen + 4 + (word data (head + channelLen)).toNat)
          data).drop (head + channelLen + 4)).take (head + channelLen + 4 +
            (word data (head + channelLen)).toNat - (head + channelLen + 4)) =
          (data.drop (head + channelLen + 4)).take (word data (head + channelLen)).toNat := by
        rw [List.drop_take, List.take_take, Nat.min_self, Nat.add_sub_cancel_left]
      have hlength : ((data.drop (head + channelLen + 4)).take
          (word data (head + channelLen)).toNat).length = (word data (head + channelLen)).toNat := by
        rw [List.length_take, List.length_drop]
        omega
      rw [hpayload]
      exact ⟨_, rfl, checkChannel_ok_iff.1 (by simpa using hchannel), by dsimp only; omega, by omega,
        by dsimp only; omega, asBytes_of_fromUtf8 hname, hlength, by rw [hlength]⟩

/-- Where a head is that of a publish frame, the end of it that was found is what was written. -/
theorem publish_of_run_bodyPlan {found : Frame → α} {data : Bytes} {item : α} {used : ℕ}
    (hhead : head ≤ data.length) (hkind : word data 0 = messageTypePublish)
    (hrun : (bodyPlan found (word data 4).toNat).run data = .take (some item) used) :
    ∃ frame, item = found frame ∧ used ≤ data.length ∧ publish frame = .ok (data.take used) := by
  obtain ⟨frame, rfl, hchannel, hpayload, hused, rfl, hname, hlength, hbytes⟩ := of_run_bodyPlan hrun
  refine ⟨frame, rfl, hused, publish_eq_ok_iff.2 ⟨hchannel, hpayload, ?_⟩⟩
  have hnameLen : (asBytes frame.channel).length = (word data 4).toNat := by
    rw [hname, List.length_take, List.length_drop]
    omega
  have h8 := length_head
  -- The bytes of the frame, field by field.
  rw [List.take_add, List.take_add, List.take_add, h8, show 8 = 4 + 4 from rfl, List.take_add]
  have hword : ∀ n, n + 4 ≤ data.length → (data.drop n).take 4 = u32ToBe (word data n) :=
    fun n hn => by rw [word, u32ToBe_fromBe (by rw [List.length_take, List.length_drop]; omega)]
  have h0 : data.take 4 = u32ToBe messageTypePublish := by
    rw [← hkind, ← hword 0 (by omega), List.drop_zero]
  have hname' := hname
  rw [h8] at hname' hbytes hlength
  rw [h0, hword 4 (by omega), hword (4 + 4 + (word data 4).toNat) (by omega), ← hname', ← hbytes,
    layout, lengthPrefixed, lengthPrefixed, hnameLen, hlength, UInt32.ofNat_toNat, UInt32.ofNat_toNat]
  simp

/-- The end of a frame that was written is found, whatever comes behind it. -/
theorem readBody_layout (found : Frame → α) {frame : Frame}
    (hchannel : ValidChannel frame.channel maxChannelLen)
    (hpayload : frame.payload.length ≤ maxMessageLen) (rest : Bytes) {len : ℕ}
    (hlen : (layout frame).length ≤ len) :
    readBody found len (asBytes frame.channel).length
        (asBytes frame.channel ++ (lengthPrefixed frame.payload ++ rest)) =
      .ok (.item (found frame) (layout frame).length, rest) := by
  have hmax : maxMessageLen < UInt32.size := by decide
  have hlayout := length_layout frame
  rw [readBody, if_neg (by omega), Reader.bind_of_ok (Reader.take_append _ rfl), lengthPrefixed,
    List.append_assoc, Reader.bind_of_ok (Reader.u32_append _ _),
    UInt32.toNat_ofNat_of_lt' (by omega)]
  dsimp only
  rw [if_neg (by omega), if_neg (by omega), fromUtf8_asBytes]
  dsimp only
  rw [if_neg (by simpa using checkChannel_of_valid hchannel),
    Reader.bind_of_ok (Reader.take_append _ rfl), hlayout]
  rfl

/-- A frame that was published is read, whatever comes behind it. -/
theorem readers_of_publish {frame : Frame} {bytes : Bytes} (h : publish frame = .ok bytes)
    (rest : Bytes) :
    decode (bytes ++ rest) = .ok (.item frame bytes.length) ∧
      decodeRequest (bytes ++ rest) = .ok (.item (.publish frame) bytes.length) := by
  obtain ⟨hchannel, hpayload, rfl⟩ := publish_eq_ok_iff.1 h
  have hlong := hchannel.2.2
  have hread : maxChannelLen < channelReadMax := by decide
  have hsize : channelReadMax < UInt32.size := by decide
  have h8 := length_head
  have hlen : (layout frame).length ≤ (layout frame ++ rest).length := by simp
  have hlayout := length_layout frame
  have hhead : ¬ (layout frame ++ rest).length < head := by omega
  have hsplit : layout frame ++ rest = u32ToBe messageTypePublish ++
      (u32ToBe (UInt32.ofNat (asBytes frame.channel).length) ++
        (asBytes frame.channel ++ (lengthPrefixed frame.payload ++ rest))) := by
    simp [layout, lengthPrefixed]
  have hnat : (UInt32.ofNat (asBytes frame.channel).length).toNat = (asBytes frame.channel).length :=
    UInt32.toNat_ofNat_of_lt' (by omega)
  constructor
  · rw [decode, if_neg hhead, readFrame]
    generalize (layout frame ++ rest).length = len at hlen
    rw [hsplit, Reader.bind_of_ok (Reader.u32_append _ _), if_neg (by simp)]
    dsimp only
    rw [Reader.bind_of_ok (Reader.u32_append _ _)]
    rw [hnat, if_neg (by omega), readBody_layout id hchannel hpayload rest hlen]
    rfl
  · rw [decodeRequest, if_neg hhead, readRequest]
    generalize (layout frame ++ rest).length = len at hlen
    rw [hsplit, Reader.bind_of_ok (Reader.u32_append _ _), if_neg (by simp)]
    dsimp only
    rw [Reader.bind_of_ok (Reader.u32_append _ _)]
    rw [hnat, if_neg (by omega), if_neg (by simp),
      readBody_layout Request.publish hchannel hpayload rest hlen]
    rfl

/-- A frame that is read, as a client reads one, was published. -/
theorem publish_of_decode {data : Bytes} {frame : Frame} {used : ℕ}
    (h : decode data = .ok (.item frame used)) :
    used ≤ data.length ∧ publish frame = .ok (data.take used) := by
  have hrun : framePlan.run data = .take (some frame) used := by rw [← answer_decode, h, answer]
  rw [framePlan] at hrun
  by_cases hhead : data.length < head
  · simp only [Plan.run, if_pos hhead] at hrun
    cases hrun
  have h8 := length_head
  rw [Plan.run_wait_of_le (by omega), word_take (by omega), word_take (by omega)] at hrun
  dsimp only at hrun
  split_ifs at hrun with hkind hlong
  · cases hrun
  · cases hrun
  · obtain ⟨_, rfl, hpublish⟩ := publish_of_run_bodyPlan (not_lt.1 hhead) (not_not.1 hkind) hrun
    exact hpublish

/-- And so was one that is read as a relay reads it. -/
theorem publish_of_decodeRequest {data : Bytes} {frame : Frame} {used : ℕ}
    (h : decodeRequest data = .ok (.item (.publish frame) used)) :
    used ≤ data.length ∧ publish frame = .ok (data.take used) := by
  have hrun : requestPlan.run data = .take (some (.publish frame)) used := by
    rw [← answer_decodeRequest, h, answer]
  rw [requestPlan] at hrun
  by_cases hhead : data.length < head
  · simp only [Plan.run, if_pos hhead] at hrun
    cases hrun
  have h8 := length_head
  rw [Plan.run_wait_of_le (by omega), word_take (by omega), word_take (by omega)] at hrun
  dsimp only at hrun
  split_ifs at hrun with hkind hlong hpublish
  · cases hrun
  · cases hrun
  · by_cases hframe : data.length < head + (word data 4).toNat
    · simp only [Plan.run, if_pos hframe] at hrun
      cases hrun
    rw [Plan.run_wait_of_le (by omega), patternEnd] at hrun
    split at hrun
    · cases hrun
    · split_ifs at hrun <;> cases hrun
  · obtain ⟨_, hframe, hwritten⟩ :=
      publish_of_run_bodyPlan (not_lt.1 hhead) (not_not.1 hpublish) hrun
    cases hframe
    exact hwritten

/-- The two readers have the same lines for the end of a publish frame. -/
theorem readBody_comp {β : Type} (found : Frame → α) (f : α → β) (len channelLen : ℕ) (l : Bytes) :
    (readBody (f ∘ found) len channelLen l).map Prod.fst =
      ((readBody found len channelLen l).map Prod.fst).map (Decoded.map f) := by
  unfold readBody
  by_cases hhead : len < head + channelLen + 4
  · simp only [if_pos hhead]
    rfl
  simp only [if_neg hhead]
  cases hname : Reader.take channelLen l with
  | error e =>
    rw [Reader.bind_of_error hname, Reader.bind_of_error hname]
    rfl
  | ok name =>
    rw [Reader.bind_of_ok hname, Reader.bind_of_ok hname]
    cases hlength : Reader.u32 name.2 with
    | error e =>
      rw [Reader.bind_of_error hlength, Reader.bind_of_error hlength]
      rfl
    | ok length =>
      rw [Reader.bind_of_ok hlength, Reader.bind_of_ok hlength]
      by_cases hlong : length.1.toNat > maxMessageLen
      · simp only [if_pos hlong]
        rfl
      simp only [if_neg hlong]
      by_cases hframe : len < head + channelLen + 4 + length.1.toNat
      · simp only [if_pos hframe]
        rfl
      simp only [if_neg hframe]
      cases hchannel : fromUtf8 name.1 with
      | none => rfl
      | some channel =>
        dsimp only
        by_cases hvalid : checkChannel channel maxChannelLen ≠ .ok ()
        · simp only [if_pos hvalid]
          rfl
        simp only [if_neg hvalid]
        cases hpayload : Reader.take length.1.toNat length.2 with
        | error e =>
          rw [Reader.bind_of_error hpayload, Reader.bind_of_error hpayload]
          rfl
        | ok payload =>
          rw [Reader.bind_of_ok hpayload, Reader.bind_of_ok hpayload]
          rfl

/-- On a publish frame, and before there is a head, a relay reads what a client reads. -/
theorem decodeRequest_eq_map {data : Bytes}
    (h : data.length < head ∨ data.take 4 = u32ToBe messageTypePublish) :
    decodeRequest data = (decode data).map (Decoded.map .publish) := by
  unfold decodeRequest decode
  by_cases hhead : data.length < head
  · rw [if_pos hhead, if_pos hhead]
    rfl
  rw [if_neg hhead, if_neg hhead]
  have h8 := length_head
  have hkind : word data 0 = messageTypePublish := by
    rw [word, List.drop_zero, h.resolve_left hhead, u32FromBe_toBe]
  rw [readRequest, readFrame, Reader.bind_of_ok (Reader.u32_of_le (by omega)),
    Reader.bind_of_ok (Reader.u32_of_le (by omega)), hkind, if_neg (by simp), if_neg (by simp)]
  dsimp only
  rw [Reader.bind_of_ok (Reader.u32_drop (by omega)), Reader.bind_of_ok (Reader.u32_drop (by omega))]
  by_cases hlong : (word data 4).toNat > channelReadMax
  · rw [if_pos hlong, if_pos hlong]
    rfl
  · rw [if_neg hlong, if_neg hlong, if_neg (by simp)]
    exact readBody_comp id Request.publish _ _ _

/-- **The publish frame is one format, both ways.**  What the encoder takes is what the two readers
find at the front of a stream, with the length of it, and what they find there is what the encoder
writes.  On a publish frame, and before there is a head, they answer alike. -/
theorem publish_both_ways :
    (∀ frame bytes, publish frame = .ok bytes → ∀ rest,
      decode (bytes ++ rest) = .ok (.item frame bytes.length) ∧
      decodeRequest (bytes ++ rest) = .ok (.item (.publish frame) bytes.length)) ∧
    (∀ data frame used, decode data = .ok (.item frame used) ∨
        decodeRequest data = .ok (.item (.publish frame) used) →
      used ≤ data.length ∧ publish frame = .ok (data.take used)) ∧
    (∀ data : Bytes, data.length < head ∨ data.take 4 = u32ToBe messageTypePublish →
      decodeRequest data = (decode data).map (Decoded.map .publish)) := by
  refine ⟨fun frame bytes h rest => readers_of_publish h rest, fun data frame used h => ?_,
    fun data h => decodeRequest_eq_map h⟩
  rcases h with h | h
  · exact publish_of_decode h
  · exact publish_of_decodeRequest h

/-! ### A subscription, and the relay that reads it -/

/-- A relay reads the two requests with this text, whatever comes behind them. -/
def ReadsBack (text : String) : Prop :=
  ∀ rest,
    decodeRequest (subscribe text ++ rest) = .ok (.item (.subscribe text) (subscribe text).length) ∧
    decodeRequest (unsubscribe text ++ rest) =
      .ok (.item (.unsubscribe text) (unsubscribe text).length)

theorem length_request (kind : UInt32) (text : String) :
    (request kind text).length = head + (asBytes text).length := by
  simp [request, length_lengthPrefixed, length_head]
  omega

/-- What a relay makes of a request for a text, by its kind. -/
def requestOf (kind : UInt32) (text : String) : Request :=
  if kind = messageTypeSubscribe then .subscribe text else .unsubscribe text

/-- The head of a request that was written, where a relay reads it. -/
theorem decodeRequest_request {kind : UInt32}
    (hkind : kind = messageTypeSubscribe ∨ kind = messageTypeUnsubscribe) {text : String}
    (htext : (asBytes text).length < UInt32.size) (rest : Bytes) :
    decodeRequest (request kind text ++ rest) =
      if (asBytes text).length > channelReadMax then .error (.channelTooLong (asBytes text).length)
      else .ok (.item (requestOf kind text) (request kind text).length) := by
  have h8 := length_head
  have hlen : (request kind text).length ≤ (request kind text ++ rest).length := by simp
  have hrequest := length_request kind text
  have hnat : (UInt32.ofNat (asBytes text).length).toNat = (asBytes text).length :=
    UInt32.toNat_ofNat_of_lt' htext
  have hkinds : ¬ (kind ≠ messageTypePublish ∧ kind ≠ messageTypeSubscribe ∧
      kind ≠ messageTypeUnsubscribe) := fun h => hkind.elim h.2.1 h.2.2
  have hpublish : kind ≠ messageTypePublish := by
    rcases hkind with rfl | rfl <;> decide
  have hsplit : request kind text ++ rest = u32ToBe kind ++
      (u32ToBe (UInt32.ofNat (asBytes text).length) ++ (asBytes text ++ rest)) := by
    simp [request, lengthPrefixed]
  rw [decodeRequest, if_neg (by omega), readRequest]
  generalize (request kind text ++ rest).length = len at hlen
  rw [hsplit, Reader.bind_of_ok (Reader.u32_append _ _), if_neg hkinds]
  dsimp only
  rw [Reader.bind_of_ok (Reader.u32_append _ _)]
  rw [hnat]
  by_cases hlong : (asBytes text).length > channelReadMax
  · rw [if_pos hlong, if_pos hlong]
    rfl
  rw [if_neg hlong, if_neg hlong, if_pos hpublish, readPattern, if_neg (by omega)]
  rw [Reader.bind_of_ok (Reader.take_append _ rfl)]
  rw [fromUtf8_asBytes, ← hrequest]
  rfl

/-- A request for a text is never longer than a name may be. -/
theorem length_of_decodeRequest {data : Bytes} {item : Request} {used : ℕ}
    (h : decodeRequest data = .ok (.item item used)) (hitem : ∀ frame, item ≠ .publish frame) :
    used ≤ head + channelReadMax := by
  have hrun : requestPlan.run data = .take (some item) used := by
    rw [← answer_decodeRequest, h, answer]
  rw [requestPlan] at hrun
  by_cases hhead : data.length < head
  · simp only [Plan.run, if_pos hhead] at hrun
    cases hrun
  rw [Plan.run_wait_of_le (by omega)] at hrun
  dsimp only at hrun
  split_ifs at hrun with hkind hlong hpublish
  · cases hrun
  · cases hrun
  · by_cases hframe : data.length < head + (word (data.take head) 4).toNat
    · simp only [Plan.run, if_pos hframe] at hrun
      cases hrun
    rw [Plan.run_wait_of_le (by omega), patternEnd] at hrun
    split at hrun <;> cases hrun
    omega
  · obtain ⟨frame, rfl, -⟩ := of_run_bodyPlan hrun
    exact absurd rfl (hitem frame)

/-- A relay reads what a client writes exactly where its text is no longer than it lets a name be. -/
theorem readsBack_of_le {text : String} (h : (asBytes text).length ≤ channelReadMax) :
    ReadsBack text := by
  have hsize : channelReadMax < UInt32.size := by decide
  refine fun rest => ⟨?_, ?_⟩
  · rw [subscribe, decodeRequest_request (.inl rfl) (by omega), if_neg (by omega)]
    rfl
  · rw [unsubscribe, decodeRequest_request (.inr rfl) (by omega), if_neg (by omega)]
    rfl

theorem le_of_readsBack {text : String} (h : ReadsBack text) :
    (asBytes text).length ≤ channelReadMax := by
  have hused := length_of_decodeRequest (h []).1 (by simp)
  rw [subscribe, length_request] at hused
  omega

variable {Regex : Type}

/-- **A relay reads a request that a client writes exactly where the text in it is no longer than a
name that it reads**: of a name that is the text with its escapes, which may be twice as long. -/
theorem readsBack_forARelay (engine : Engine Regex) :
    (∀ name (rule : Rule Regex), Subscriptions.checkName name = .ok rule →
      (ReadsBack rule.forARelay ↔ (asBytes rule.forARelay).length ≤ channelReadMax)) ∧
    (∀ pattern rule, Subscriptions.check engine pattern = .ok rule →
      (ReadsBack rule.forARelay ↔ (asBytes rule.forARelay).length ≤ channelReadMax)) :=
  ⟨fun _ _ _ => ⟨le_of_readsBack, readsBack_of_le⟩, fun _ _ _ => ⟨le_of_readsBack, readsBack_of_le⟩⟩

/-- A name of so many dots. -/
def dots (count : ℕ) : String := String.ofList (List.replicate count '.')

theorem asBytes_dots (count : ℕ) : asBytes (dots count) = List.replicate count 46 := by
  have hdot : String.utf8EncodeChar '.' = [46] := by decide
  rw [dots, asBytes_ofList, List.flatMap_replicate, hdot, List.flatten_replicate_singleton]

/-- Each dot of a name has an escape before it. -/
theorem length_escaped_dots (count : ℕ) : (asBytes (escaped (dots count))).length = count * 2 := by
  have hdot : (if '.' ∈ "\\.+*?()|[]\x7b\x7d^$".toList then ['\\', '.'] else ['.']) =
      ['\\', '.'] := by decide +kernel
  have hbytes : (['\\', '.'].map fun c => (String.utf8EncodeChar c).length).sum = 2 := by decide
  rw [escaped, dots, String.toList_ofList (l := List.replicate count _), List.flatMap_replicate, hdot,
    asBytes_ofList, List.length_flatMap, List.map_flatten, List.map_replicate, List.sum_flatten,
    List.map_replicate, hbytes, List.sum_replicate, smul_eq_mul]

/-- A name of six hundred dots is one that a client takes, and the relay that reads it ends the
connection. -/
theorem unread_dots :
    Subscriptions.checkName (dots 600) = .ok (.name (dots 600) : Rule Unit) ∧
    ¬ ReadsBack (Rule.name (dots 600) : Rule Unit).forARelay ∧
    ∀ rest, decodeRequest (subscribe (Rule.name (dots 600) : Rule Unit).forARelay ++ rest) =
      .error (.channelTooLong 1200) := by
  have hlength := length_escaped_dots 600
  have hchannel : checkChannel (dots 600) channelMax = .ok () := by
    refine checkChannel_of_valid ⟨?_, ?_, ?_⟩ <;> rw [asBytes_dots]
    · exact List.ne_nil_of_length_pos (by rw [List.length_replicate]; decide)
    · exact fun h => absurd (List.eq_of_mem_replicate h) (by decide)
    · rw [List.length_replicate]
      decide
  refine ⟨by rw [Subscriptions.checkName, hchannel], fun h => ?_, fun rest => ?_⟩
  · have hle := le_of_readsBack h
    rw [Rule.forARelay, hlength] at hle
    exact absurd hle (by decide)
  · rw [Rule.forARelay, subscribe, decodeRequest_request (.inl rfl) (by rw [hlength]; decide), hlength,
      if_pos (by decide)]

end Tcpq

end LcmBus
