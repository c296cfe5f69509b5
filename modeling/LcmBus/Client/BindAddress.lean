import LcmBus.Bus.UrlRound

/-!
# The address a relay is bound at

`bind_address` of `serve.rs`, beside `BusUrl::parse`, which reads the same URL by another rule.

* `hostPart`: the host that a URL states;
* `openTo_iff`: the URLs at which `bindAddress` takes every address;
* `binds_what_is_stated_iff`: where that is what the URL states.
-/

namespace LcmBus.Serve

open Url Url.BusUrl

variable {F : Type} {f64 : F64 F}

/-- What a `tcpq://` URL states, after its scheme. -/
def stated (url : String) : List Char := (stripPrefix "tcpq://" url).getD url.toList

def bindAddress (url : String) (relay : Relay) : String :=
  if stated url = [] ∨ (stated url).head? = some ':' then
    "0.0.0.0:" ++ String.ofList (Nat.toDigits 10 relay.port.toNat)
  else relay.host ++ ":" ++ String.ofList (Nat.toDigits 10 relay.port.toNat)

/-- The host that a URL states: what is before the last colon, or all of it. -/
def hostPart (url : String) : List Char :=
  match Split.rightOnce ':' (stated url) with
  | some (host, _) => host
  | none => stated url

/-- A host and a port, as a socket address is written. -/
def hostAndPort (host : String) (port : UInt16) : String :=
  host ++ ":" ++ String.ofList (Nat.toDigits 10 port.toNat)

/-- `bind_address` looks at the first character of what is stated, and so of the host. -/
theorem openTo_iff (url : String) : (stated url = [] ∨ (stated url).head? = some ':') ↔
    hostPart url = [] ∨ (hostPart url).head? = some ':' := by
  unfold hostPart
  split
  next host port h =>
    obtain ⟨hstated, -⟩ := Split.rightOnce_eq_some_iff.1 h
    rw [hstated]
    cases host <;> simp
  next => rfl

theorem bindAddress_eq (url : String) (relay : Relay) : bindAddress url relay =
    hostAndPort (if hostPart url = [] ∨ (hostPart url).head? = some ':' then "0.0.0.0"
      else relay.host) relay.port := by
  have hevery : "0.0.0.0:" = "0.0.0.0" ++ ":" := by decide
  rw [bindAddress, hevery, if_congr (openTo_iff url) rfl rfl]
  split_ifs <;> rfl

theorem hostAndPort_inj {host host' : String} {port : UInt16} :
    hostAndPort host port = hostAndPort host' port ↔ host = host' := by
  refine ⟨fun h => ?_, congrArg (hostAndPort · port)⟩
  have htext := congrArg String.toList h
  simp only [hostAndPort, String.toList_append, List.append_assoc] at htext
  exact String.toList_inj.1 (List.append_cancel_right htext)

theorem parseRelay_of_parse {url : String} {relay : Relay}
    (h : BusUrl.parse f64 url = .ok (.tcpq relay)) : parseRelay (stated url) url = .ok relay := by
  unfold BusUrl.parse at h
  rw [stated]
  split at h
  next rest hrest =>
    obtain ⟨relay, hrelay, ⟨⟩⟩ := map_eq_ok.1 h
    rw [hrest, Option.getD_some, hrelay]
  next =>
    split at h
    · obtain ⟨log, -, ⟨⟩⟩ := map_eq_ok.1 h
    · split at h
      · obtain ⟨multicast, -, ⟨⟩⟩ := map_eq_ok.1 h
      · cases h

/-- The host that `parse` gives is the one stated, where there is one. -/
theorem host_of_parse {url : String} {relay : Relay} (h : BusUrl.parse f64 url = .ok (.tcpq relay))
    (hhost : hostPart url ≠ []) : relay.host = String.ofList (hostPart url) := by
  have hrelay := parseRelay_of_parse h
  cases hsplit : Split.rightOnce ':' (stated url) with
  | none =>
    have hpart : hostPart url = stated url := by rw [hostPart, hsplit]
    rw [parseRelay, hsplit] at hrelay
    cases hrelay
    rw [hpart] at hhost ⊢
    exact if_neg hhost
  | some parts =>
    have hpart : hostPart url = parts.1 := by rw [hostPart, hsplit]
    rw [parseRelay, hsplit] at hrelay
    obtain ⟨port, -, rfl⟩ := map_eq_ok.1 hrelay
    rw [hpart] at hhost ⊢
    exact if_neg hhost

/-- Every address is bound where no host is stated, where the one stated begins with a colon, and
where that is what is stated. -/
theorem binds_every_address_iff {url : String} {relay : Relay}
    (h : BusUrl.parse f64 url = .ok (.tcpq relay)) :
    bindAddress url relay = hostAndPort "0.0.0.0" relay.port ↔
      hostPart url = [] ∨ (hostPart url).head? = some ':' ∨ hostPart url = "0.0.0.0".toList := by
  rw [bindAddress_eq, hostAndPort_inj, ← or_assoc]
  split_ifs with hopen
  · simp [hopen]
  · obtain ⟨hempty, -⟩ := not_or.1 hopen
    rw [host_of_parse h hempty, ← String.toList_inj, String.toList_ofList]
    exact (or_iff_right hopen).symm

/-- A URL binds what it states, but for one whose host begins with a colon, which binds every
address. -/
theorem binds_what_is_stated_iff (url : String) (relay : Relay)
    (h : BusUrl.parse f64 url = .ok (.tcpq relay)) :
    (bindAddress url relay =
        if hostPart url = [] then hostAndPort "0.0.0.0" relay.port
        else hostAndPort relay.host relay.port) ↔
      (hostPart url).head? ≠ some ':' := by
  rw [bindAddress_eq]
  by_cases hempty : hostPart url = []
  · simp [hempty]
  · rw [if_neg hempty, hostAndPort_inj]
    constructor
    · intro heq hcolon
      rw [if_pos (.inr hcolon), host_of_parse h hempty] at heq
      have htext := congrArg (fun s => s.toList.head?) heq
      simp [hcolon] at htext
    · intro hcolon
      rw [if_neg (not_or.2 ⟨hempty, hcolon⟩)]

theorem binds_what_is_stated_iff_of_loopback :
    bindAddress "tcpq://[::1]:80" ⟨"[::1]", 80⟩ = hostAndPort "[::1]" 80 := by
  have hparse : BusUrl.parse wholeRates "tcpq://[::1]:80" = .ok (.tcpq ⟨"[::1]", 80⟩) := by
    decide +kernel
  have hstated := (binds_what_is_stated_iff _ _ hparse).2 (by decide +kernel)
  rwa [if_neg (by decide +kernel)] at hstated

/-- A host that begins with a colon is stated, and every address is bound. -/
theorem opens_a_stated_host :
    BusUrl.parse wholeRates "tcpq://::1:80" = .ok (.tcpq ⟨"::1", 80⟩) ∧
    hostPart "tcpq://::1:80" = "::1".toList ∧
    bindAddress "tcpq://::1:80" ⟨"::1", 80⟩ = hostAndPort "0.0.0.0" 80 ∧
    ¬ bindAddress "tcpq://::1:80" ⟨"::1", 80⟩ =
      if hostPart "tcpq://::1:80" = [] then hostAndPort "0.0.0.0" 80
      else hostAndPort "::1" 80 := by
  decide +kernel

end LcmBus.Serve
