import LcmBus.Client.RulesTexts
import LcmBus.Client.StreamReads

/-!
# The rules a relay holds for a peer

What `peer_reader` of a served relay makes of the frames that a client let into its control lane, with
its opening subscriptions before them and messages between them.

* `frameOf` and `tellOf`: a request as its client writes it, and what it says of the rules;
* `onRequest_texts`: what a request that is acted on does to the texts a relay holds;
* `holds_the_same`: the relay holds what the client does.
-/

namespace LcmBus.Rules

open Incremental Tcpq

variable {Regex : Type} {relay : Engine Regex}

/-- A request, as a client writes it. -/
def frameOf : Request → Except WireError Bytes
  | .publish frame => publish frame
  | .subscribe text => .ok (subscribe text)
  | .unsubscribe text => .ok (unsubscribe text)

/-- What a request says of the rules. -/
def tellOf : Request → Option Tell
  | .publish _ => none
  | .subscribe text => some (.subscribe text)
  | .unsubscribe text => some (.unsubscribe text)

/-- The text of a request can be read, and a pattern of it can be built. -/
def Accepted (relay : Engine Regex) : Request → Prop
  | .publish _ => True
  | .subscribe text => (asBytes text).length ≤ channelReadMax ∧
      ∃ rule, Subscriptions.check relay text = .ok rule
  | .unsubscribe text => (asBytes text).length ≤ channelReadMax

/-! ### What is read -/

/-- A relay reads what a client writes. -/
theorem requestPlan_run {request : Request} {frame : Bytes} (haccepted : Accepted relay request)
    (hframe : frameOf request = .ok frame) :
    requestPlan.run frame = .take (some request) frame.length := by
  have hrun : ∀ {item}, decodeRequest (frame ++ []) = .ok (.item item frame.length) →
      requestPlan.run frame = .take (some item) frame.length := fun {item} hread => by
    rw [List.append_nil] at hread
    rw [← answer_decodeRequest, hread, answer]
  cases request with
  | publish message => exact hrun (readers_of_publish hframe []).2
  | subscribe text =>
    cases hframe
    exact hrun (readsBack_of_le haccepted.1 []).1
  | unsubscribe text =>
    cases hframe
    exact hrun (readsBack_of_le haccepted []).2

/-- The requests of a stream are those that were written to it. -/
theorem parse_requests {sent : List (Request × Bytes)}
    (haccepted : ∀ item ∈ sent, Accepted relay item.1)
    (hframes : ∀ item ∈ sent, frameOf item.1 = .ok item.2) :
    parse requestPlan.run (sent.flatMap Prod.snd) = (sent.map fun item => some item.1, none) := by
  have hitems : ∀ item ∈ sent.map (fun item => (some item.1, item.2)),
      requestPlan.run item.2 = .take item.1 item.2.length := fun item hitem => by
    obtain ⟨found, hfound, rfl⟩ := List.mem_map.1 hitem
    exact requestPlan_run (haccepted found hfound) (hframes found hfound)
  have hparse := fits_requestPlan.stable.parse_flatMap ⟨_, rfl⟩ hitems
  rw [List.flatMap_map, List.map_map] at hparse
  exact hparse

/-! ### What is held -/

/-- Every rule was given as a pattern, so a relay finds it by what it was told. -/
def Told (s : Subscriptions Regex) : Prop := ∀ rule ∈ s.rules, rule.forARelay = rule.text

theorem texts_new : texts (Subscriptions.new : Subscriptions Regex) = 0 := rfl

theorem texts_push (s : Subscriptions Regex) (rule : Rule Regex) :
    texts (s.push rule) = rule.forARelay ::ₘ texts s := by
  have hsound : (Change.push rule.forARelay rule).Sound s := rfl
  exact hsound.texts_apply

theorem Told.remove {s : Subscriptions Regex} (h : Told s) (text : String) :
    Told (s.remove text).2 ∧ texts (s.remove text).2 = (texts s).erase text := by
  refine ⟨fun rule hrule => h rule (List.eraseP_subset hrule), ?_⟩
  cases hfind : s.find text with
  | none =>
    have hnone : ∀ rule ∈ s.rules, rule.text ≠ text := by
      simpa [Subscriptions.find] using hfind
    have hmem : text ∉ texts s := fun hmem => by
      obtain ⟨rule, hrule, htext⟩ := List.mem_map.1 (Multiset.mem_coe.1 hmem)
      exact hnone rule hrule ((h rule hrule).symm.trans htext)
    have hsame : s.rules.eraseP (fun rule => rule.text = text) = s.rules :=
      List.eraseP_of_forall_not (by simpa using hnone)
    rw [Multiset.erase_of_notMem hmem, Subscriptions.remove, hsame]
  | some held =>
    have hheld : held = text := by
      obtain ⟨rule, hrule, rfl⟩ := Option.map_eq_some_iff.1 hfind
      rw [h rule (List.mem_of_find?_eq_some hrule)]
      simpa using List.find?_some hrule
    rw [hheld] at hfind
    have hsound : (Change.remove text text).Sound s := hfind
    exact hsound.texts_apply

/-- A request that is acted on does to the texts what it says. -/
theorem onRequest_texts {acted : Serve.Acted Regex} (h : Told acted.subscriptions)
    {request : Request} (haccepted : Accepted relay request) :
    Told (Serve.onRequest relay acted request).subscriptions ∧
      texts (Serve.onRequest relay acted request).subscriptions =
        (tellOf request).elim (texts acted.subscriptions) (Tell.apply (texts acted.subscriptions)) := by
  cases request with
  | publish frame =>
    unfold Serve.onRequest
    dsimp only
    split <;> exact ⟨h, rfl⟩
  | subscribe text =>
    obtain ⟨-, rule, hcheck⟩ := haccepted
    have hadd : acted.subscriptions.add relay text = .ok (acted.subscriptions.push rule) := by
      rw [Subscriptions.add, hcheck]
      rfl
    have hrule : rule.forARelay = text ∧ rule.text = text := by
      obtain ⟨compiled, -, rfl⟩ := Subscriptions.of_check hcheck
      exact ⟨rfl, rfl⟩
    simp only [Serve.onRequest, hadd]
    refine ⟨fun other hother => ?_, ?_⟩
    · rcases List.mem_append.1 hother with hother | hother
      · exact h other hother
      · rw [List.mem_singleton.1 hother, hrule.1, hrule.2]
    · rw [texts_push, hrule.1]
      rfl
  | unsubscribe text => exact h.remove text

/-- All of the requests do to the texts what they say, one behind another. -/
theorem fold_texts {requests : List Request} (haccepted : ∀ request ∈ requests, Accepted relay request)
    {acted : Serve.Acted Regex} (h : Told acted.subscriptions) :
    texts (fold (Serve.onRequest relay) id acted (requests.map some)).subscriptions =
      behind (texts acted.subscriptions) (requests.filterMap tellOf) := by
  induction requests generalizing acted with
  | nil => rfl
  | cons request requests ih =>
    obtain ⟨htold, htexts⟩ := onRequest_texts h (haccepted request List.mem_cons_self)
    have hrest := ih (fun other hother => haccepted other (List.mem_cons_of_mem _ hother)) htold
    rw [fold, List.map_cons, List.foldl_cons, ← fold]
    refine hrest.trans ?_
    rw [htexts]
    cases request <;> rfl

/-- The opening subscriptions are what they say. -/
theorem behind_opening (opening : List String) (told : List Tell) :
    behind 0 (opening.map Tell.subscribe ++ told) = behind (opening : Multiset String) told := by
  have hopening : behind 0 (opening.map Tell.subscribe) = (opening : Multiset String) := by
    induction opening using List.reverseRecOn with
    | nil => rfl
    | append_singleton opening text ih =>
      rw [List.map_append, List.map_singleton, behind_concat, ih]
      exact Multiset.coe_eq_coe.2 (List.perm_append_singleton _ _).symm
  rw [← hopening, behind, List.foldl_append]
  rfl

/-! ### The two together -/

/-- **The relay's rules are the client's rules**, whichever operations are in progress with whichever
names and patterns, and whatever else is at the outbox.  Where no change is in progress the texts of
the client's set are the opening ones and those of all subscribe frames let into the control lane,
without those of all unsubscribe frames; and a relay that has acted on those frames, behind the
opening subscriptions and with messages anywhere between, holds the same texts.  An operation that
gives back an error or `Ok(false)` changed neither side. -/
theorem holds_the_same {engine : Engine Regex} {receives : Bool} {opening : Subscriptions Regex}
    {acts : List Act} {s : State Regex}
    (hrun : Machine.run (step engine) (start receives opening) acts = some s) :
    let past := Machine.transitions (step engine) (start receives opening) acts
    (∃ told : List Tell, letIn past = told.map Tell.frame ∧ (s.changing = none →
      unsubscribed told ≤ texts opening + subscribed told ∧
      texts s.subscriptions = texts opening + subscribed told - unsubscribed told ∧
      ∀ (Regex' : Type) (relay : Engine Regex') (sent : List (Request × Bytes)) (cuts : List Cut),
        (∀ item ∈ sent, frameOf item.1 = .ok item.2) → (∀ item ∈ sent, Accepted relay item.1) →
        (sent.map Prod.fst).filterMap tellOf = opening.forARelay.map Tell.subscribe ++ told →
        Cut.failed ∉ cuts →
          ∃ turns t, Loop.after (Serve.peerReader relay) turns
              (Serve.peerStart ⟨sent.flatMap Prod.snd, cuts⟩) = (t, some .closed) ∧
            texts t.heard.subscriptions = texts s.subscriptions)) ∧
    ∀ name answer, s.ops name = some (.answered answer) → answer.changes = false →
      Untouched name past := by
  intro past
  have hkept := kept_of_run hrun
  obtain ⟨told, htold, hagrees⟩ := hkept.agrees
  refine ⟨⟨told, htold, fun hfree => ?_⟩, fun name answer hop hanswer => ?_⟩
  · have hnone : ∀ name change, s.ops name ≠ some (.told change) := fun name change hop => by
      cases hfree.symm.trans (hagrees.holder name _ hop rfl)
    have htexts := hagrees.settled hnone
    have hbalance := hagrees.balance
    rw [← htexts] at hbalance
    refine ⟨hbalance ▸ Multiset.le_add_left _ _, Multiset.eq_sub_of_add_eq hbalance, ?_⟩
    intro Regex' relay sent cuts hframes haccepted htells hcuts
    have hreads : Reads requestPlan Tcpq.frameMax (Serve.onRequest relay) id ⟨[], .new, []⟩
        (sent.flatMap Prod.snd) (Serve.peerStart ⟨sent.flatMap Prod.snd, cuts⟩) :=
      reads_start hcuts ⟨_, rfl⟩
    obtain ⟨turns, t, hend, hheard⟩ := hreads.ends .closed answer_decodeRequest fits_requestPlan
    have hparse := parse_requests haccepted hframes
    rw [outcome, hparse] at hend
    refine ⟨turns, t, hend, ?_⟩
    have hrequests : ∀ request ∈ sent.map Prod.fst, Accepted relay request := fun request hmem => by
      obtain ⟨item, hitem, rfl⟩ := List.mem_map.1 hmem
      exact haccepted item hitem
    have hnew : Told (⟨[], .new, []⟩ : Serve.Acted Regex').subscriptions := by rintro _ ⟨⟩
    have hfold := fold_texts hrequests hnew
    rw [List.map_map] at hfold
    rw [hheard, hparse, htexts]
    refine hfold.trans ?_
    rw [texts_new, htells]
    exact behind_opening _ _
  · refine hkept.untouched name (fun change hchange => ?_) (fun other hother => ?_)
    · cases hop.symm.trans hchange
    · cases hop.symm.trans hother
      exact hanswer

/-- A name and a pattern with one text, an unsubscribe that takes the name, and one of a text that is
not there.  The relay holds the pattern, as the client does. -/
theorem holds_the_same_of_one_text :
    let engine : Engine String := ⟨.ok, fun _ _ => none⟩
    let nexts (name : ℕ) : List Act := .lock name :: List.replicate 4 (.next name false)
    let acts : List Act := [[.subscribeName 0 "a.", .subscribe 1 "a."], nexts 0, nexts 1,
      [.unsubscribe 2 "a."], nexts 2, [.next 2 false, .unsubscribe 3 "b", .lock 3,
        .next 3 false]].flatten
    let sent : List (Request × Bytes) := [.subscribe "a\\.", .publish ⟨"a.", [1]⟩, .subscribe "a.",
      .unsubscribe "a\\."].map fun request => (request, (frameOf request).toOption.getD [])
    ∃ s, Machine.run (step engine) (start true .new) acts = some s ∧
      s.subscriptions.forARelay = ["a."] ∧ s.ops 3 = some (.answered (.whether false)) ∧
      Untouched 3 (Machine.transitions (step engine) (start true .new) acts) ∧
      ∀ cuts, Cut.failed ∉ cuts → ∃ turns t, Loop.after (Serve.peerReader engine) turns
          (Serve.peerStart ⟨sent.flatMap Prod.snd, cuts⟩) = (t, some .closed) ∧
        texts t.heard.subscriptions = {"a."} := by
  intro engine nexts acts sent
  have hend : (Machine.run (step engine) (start true .new) acts).map (fun s =>
      (s.subscriptions.forARelay, s.ops 3, s.changing)) =
        some (["a."], some (.answered (.whether false)), none) := by
    decide +kernel
  obtain ⟨s, hrun, hs⟩ := Option.map_eq_some_iff.1 hend
  simp only [Prod.mk.injEq] at hs
  obtain ⟨htexts, hop, hfree⟩ := hs
  obtain ⟨⟨told, htold, hsame⟩, huntouched⟩ := holds_the_same hrun
  have hletIn : letIn (Machine.transitions (step engine) (start true .new) acts) =
      [Tell.subscribe "a\\.", .subscribe "a.", .unsubscribe "a\\."].map Tell.frame := by
    decide +kernel
  obtain rfl := Tell.frame_injective.list_map (htold.symm.trans hletIn)
  refine ⟨s, hrun, htexts, hop, huntouched 3 _ hop rfl, fun cuts hcuts => ?_⟩
  obtain ⟨-, -, hrelay⟩ := hsame hfree
  have haccepted : ∀ item ∈ sent, Accepted engine item.1 := by
    intro item hitem
    obtain ⟨request, hrequest, rfl⟩ := List.mem_map.1 hitem
    fin_cases hrequest
    · exact ⟨by decide +kernel, _, rfl⟩
    · trivial
    · exact ⟨by decide +kernel, _, rfl⟩
    · show (asBytes "a\\.").length ≤ channelReadMax
      decide +kernel
  obtain ⟨turns, t, hturns, hheld⟩ :=
    hrelay String engine sent cuts (by decide +kernel) haccepted (by decide +kernel) hcuts
  refine ⟨turns, t, hturns, hheld.trans ?_⟩
  rw [texts, htexts]
  rfl

end LcmBus.Rules
