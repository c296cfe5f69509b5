import LcmBus.Client.DispatchVisits
import LcmBus.System.RelayedOrder

/-!
# Every message, at every client

Where a message of one client goes, through the list of peers that the relay cloned for it, and out of
the connections of these.

* `covered_of_run`: the visits of every publisher of the relay, in every run of the system;
* `reaches_each_client`: what comes of a message at each client that was on the list.
-/

namespace LcmBus.Relayed

open Outbox Relay
open Dispatch (Kept Publisher Job Covered PassedOver TurnedAway published admitted cloned visited)

variable {Regex : Type} {engine : Engine Regex} {receives : ℕ → Bool} {opening : ℕ → Subscriptions Regex}

/-- The visits of a publisher in every run. -/
theorem covered_of_run {acts : List Act} {s : State Regex}
    (hrun : Machine.run (step engine) (start receives opening) acts = some s) (p : Publisher) :
    Covered engine p s.bus (bus (Machine.transitions (step engine) (start receives opening) acts)) := by
  have hhistory := Machine.run_history
    (P := fun s past => Kept engine s.bus (bus past) ∧ Covered engine p s.bus (bus past))
    (fun _ _ _ _ h hstep => keeps_of_bus
      (P := fun u before => Kept engine u before ∧ Covered engine p u before)
      (fun _ _ _ _ h ha => ⟨h.1.step ha, h.2.step h.1 ha⟩) h hstep)
    (show Kept engine (start receives opening).bus (bus []) ∧ Covered engine p _ (bus []) from
      ⟨Dispatch.kept_start, Dispatch.covered_start p⟩) hrun
  rw [List.nil_append] at hhistory
  exact hhistory.2

/-- A publish is let through to a client no more than once. -/
theorem count_through_le {past : List (Dispatch.State Regex × Dispatch.Act × Dispatch.State Regex)}
    {s : Dispatch.State Regex} (hkept : Kept engine s past) (id : ℕ) (p : Publisher) (job : Job) :
    (through id past).count (p, job) ≤ 1 := by
  have hnumbers : ((published p past).map Job.number).Nodup := hkept.numbers p ▸ List.nodup_range
  have hnodup : (((through id past).filter fun entry => entry.1 = p).map Prod.snd).Nodup := by
    rw [through_filter]
    exact (hnumbers.of_map _).sublist (hkept.fair p id).part
  calc (through id past).count (p, job)
      = ((through id past).filter fun entry => entry.1 = p).count (p, job) :=
        (List.count_filter (by simp)).symm
    _ ≤ (((through id past).filter fun entry => entry.1 = p).map Prod.snd).count job :=
        List.count_le_count_map (f := Prod.snd) (x := (p, job))
    _ ≤ 1 := List.nodup_iff_count_le_one.1 hnodup job

/-- What is let in is let through. -/
theorem mem_through_of_letIn {past : List (Dispatch.State Regex × Dispatch.Act × Dispatch.State Regex)}
    {id : ℕ} {p : Publisher} {job : Job} (h : Dispatch.LetIn p job id past) :
    (p, job) ∈ through id past := by
  have hmem : job ∈ ((through id past).filter fun entry => entry.1 = p).map Prod.snd := by
    rw [through_filter]
    exact List.mem_map_of_mem (f := Prod.fst) h
  obtain ⟨entry, hentry, rfl⟩ := List.mem_map.1 hmem
  obtain ⟨hentry, hp⟩ := List.mem_filter.1 hentry
  rwa [← of_decide_eq_true hp]

/-- **Every message reaches every client that was on the list.**  Where the writer of a client has
nothing to do, and the relay has read, taken and dispatched all that it sent, each message that the
client let in was dispatched to one list of the peers.  A client on that list which has read all that
was sent to it was let the message through once, and its handler heard it if its own rules selected the
channel at every turn of its reader; but for one whose rules at the relay did not select the channel, or
whose outbox was closed or late. -/
theorem reaches_each_client (hopening : ∀ id, ∀ text ∈ (opening id).forARelay, Fits32 text)
    {acts : List Act} {s : State Regex} (hacts : ∀ act ∈ acts, ∀ pattern, act.pattern = some pattern →
      Fits32 pattern) (hrun : Machine.run (step engine) (start receives opening) acts = some s) :
    let past := Machine.transitions (step engine) (start receives opening) acts
    ∀ id, UpDrained s id → s.bus.places (.peer id) = .idle →
      ∀ (k : ℕ) (bytes : Bytes), (offered id past)[k]? = some bytes →
        ∃ job peers, (cloned (.peer id) (bus past))[k]? = some (job, peers) ∧ job.number = k ∧
          job.encoded = bytes ∧ ∀ other ∈ peers, DownDrained s other →
            ((through other (bus past)).count (.peer id, job) = 1 ∧
              (Listens engine other past job.frame.channel →
                job.frame ∈ (s.clients other).reader.heard.delivered)) ∨
            PassedOver engine (.peer id) job other (bus past) ∨
            TurnedAway (.peer id) job other (bus past) := by
  intro past id hup hidle k bytes hbytes
  obtain ⟨hkept, hcarried⟩ := carried_of_run hopening hacts hrun
  have hcovered := covered_of_run hrun (.peer id)
  -- The lists are those of the messages, in their order.
  have hjobs : (cloned (.peer id) (bus past)).map Prod.fst = published (.peer id) (bus past) := by
    have hall := hcovered.jobs
    rw [hidle] at hall
    exact (List.append_nil _).symm.trans hall
  rw [← ((hcarried id).up_drained (hopening id) hup).1, ← hjobs, List.map_map,
    List.getElem?_map] at hbytes
  obtain ⟨⟨job, peers⟩, hfound, rfl⟩ := Option.map_eq_some_iff.1 hbytes
  refine ⟨job, peers, hfound, ?_, rfl, fun other hother hdown => ?_⟩
  · have hnumber : ((published (.peer id) (bus past)).map Job.number)[k]? = some job.number := by
      rw [← hjobs, List.getElem?_map, List.getElem?_map, hfound]
      rfl
    rw [hkept.numbers] at hnumber
    obtain ⟨hk, heq⟩ := List.getElem?_eq_some_iff.1 hnumber
    rw [← heq, List.getElem_range]
  -- The publisher is done with each peer on them.
  have hvisit : (job, other) ∈ (visited (.peer id) (bus past)).map fun v => (v.job, v.id) := by
    have hall := hcovered.peers
    rw [hidle] at hall
    rw [← List.append_nil (List.map _ _)]
    refine hall.symm ▸ List.mem_flatMap.2 ⟨_, List.mem_of_getElem? hfound, ?_⟩
    exact List.mem_map_of_mem (f := fun id => (job, id)) hother
  obtain ⟨v, hv, heq⟩ := List.mem_map.1 hvisit
  obtain ⟨rfl, rfl⟩ := Prod.mk.inj heq
  have hholds := hcovered.holds v hv
  cases houtcome : v.outcome <;> rw [houtcome] at hholds
  case passed => exact .inr (.inl hholds)
  case refused => exact .inr (.inr hholds)
  case admitted =>
    have hmem := mem_through_of_letIn hholds
    refine .inl ⟨?_, fun hlistens => ?_⟩
    · exact le_antisymm (count_through_le hkept _ _ _) (List.count_pos_iff.2 hmem)
    · obtain ⟨heard, -, hheeds, hall⟩ := (hcarried v.id).heard_isPrefix hkept
      obtain rfl := hall hdown
      have hframe : v.job.frame ∈ onChannel v.job.frame.channel
          ((through v.id (bus past)).map fun entry => some entry.2.frame).reduceOption := by
        refine List.mem_filter.2 ⟨?_, by simp⟩
        rw [List.reduceOption_mem_iff]
        exact List.mem_map.2 ⟨_, hmem, rfl⟩
      rw [← hheeds.all _ hlistens] at hframe
      exact List.mem_of_mem_filter hframe

/-- In the run of two clients the first message of the one is heard by the other. -/
theorem reaches_each_client_of_two :
    let engine : Engine String := ⟨.ok, fun compiled text => some (compiled = "^(?:" ++ text ++ ")$")⟩
    let opening : ℕ → Subscriptions String := fun id => ⟨if id = 1 then [.name "a"] else []⟩
    let past := Machine.transitions (step engine) (start (fun _ => true) opening) oneMessage
    ∃ s job, Machine.run (step engine) (start (fun _ => true) opening) oneMessage = some s ∧
      job.number = 0 ∧ (offered 0 past)[0]? = some job.encoded ∧
      (through 1 (bus past)).count (.peer 0, job) = 1 ∧ job.frame ∈ (s.clients 1).reader.heard.delivered := by
  intro engine opening past
  have hend : (Machine.run (step engine) (start (fun _ => true) opening) oneMessage).any (fun s =>
      UpDrained s 0 ∧ DownDrained s 1 ∧ s.bus.places (.peer 0) = .idle) = true := by decide +kernel
  obtain ⟨s, hrun, hs⟩ := (Option.any_eq_true _ _).1 hend
  obtain ⟨hup, hdown, hidle⟩ := of_decide_eq_true hs
  have hopening : ∀ id, ∀ text ∈ (opening id).forARelay, Fits32 text := by
    intro id text htext
    dsimp only [opening] at htext
    split_ifs at htext
    · rw [List.mem_singleton.1 htext]
      decide +kernel
    · cases htext
  obtain ⟨bytes, hbytes⟩ : ∃ bytes, (offered 0 past)[0]? = some bytes :=
    Option.isSome_iff_exists.1 (by decide +kernel)
  obtain ⟨job, peers, hcloned, hnumber, rfl, hreaches⟩ := reaches_each_client hopening
    pattern_oneMessage hrun 0 hup hidle 0 bytes hbytes
  have hlist : ((cloned (.peer 0) (bus past))[0]?).map (fun found => (found.1.frame.channel, found.2)) =
      some ("a", [0, 1]) := by decide +kernel
  rw [hcloned] at hlist
  obtain ⟨hchannel, rfl⟩ := Prod.mk.inj (Option.some.inj hlist)
  have hlistens : Listens engine 1 past job.frame.channel := by
    have hall : ∀ entry ∈ past, entry.2.1.reads 1 = true →
        (entry.1.clients 1).subscriptions.selects engine "a" = true := by decide +kernel
    rw [hchannel]
    exact hall
  have hselected : ∀ entry ∈ bus past, 1 ∈ (entry.1.places (.peer 0)).rest →
      (entry.1.subscriptions 1).selects engine "a" = true := by decide +kernel
  have hadmitted : ∀ entry ∈ bus past, ∀ v ∈ Dispatch.visits (.peer 0) entry.1 entry.2.1 entry.2.2,
      v.outcome ≠ .refused := by decide +kernel
  have hnot : ¬ (PassedOver engine (.peer 0) job 1 (bus past) ∨
      TurnedAway (.peer 0) job 1 (bus past)) := by
    rintro (⟨u, v, rest, hmem, hplace, hselects⟩ | ⟨u, act, v, hmem, -, hvisits, -⟩)
    · have hrules := hselected _ hmem (by rw [hplace]; exact List.mem_cons_self)
      rw [← hchannel, hselects] at hrules
      cases hrules
    · exact hadmitted _ hmem _ (by rw [hvisits]; exact List.mem_singleton_self _) rfl
  obtain ⟨hcount, hheard⟩ := (hreaches 1 (by simp) hdown).resolve_right hnot
  exact ⟨s, job, hrun, hnumber, hbytes, hcount, hheard hlistens⟩

end LcmBus.Relayed
