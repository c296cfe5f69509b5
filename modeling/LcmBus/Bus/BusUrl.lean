import LcmBus.Bus.Url
import LcmBus.Bus.Values

/-!
# Bus URLs

`BusUrl` of `url.rs`, the bus that a URL says to open.

* `BusUrl.parse`: a text as the URL of a bus, with the texts that its three schemes are of;
* `BusUrl.display`: the URL of a bus, as `impl Display` writes it;
* `Gives`: what a reader of a URL comes to, in one statement for each reader.
-/

namespace LcmBus.Url

open LcmBus.BusUrl

/-- The fault in a URL. -/
inductive UrlProblem
  | scheme
  | group
  | notMulticast
  | port
  | ttl
  | recvBufSize
  | interface
  | shortMax
  | noPath
  | mode
  | speed
  | startTimestamp
  deriving DecidableEq, Repr

/-- A URL that did not parse, and what was wrong with it. -/
structure BadUrl where
  url : String
  problem : UrlProblem
  deriving DecidableEq, Repr

/-- A multicast bus. -/
structure Multicast where
  group : Ipv4Addr
  port : UInt16
  ttl : UInt8
  recvBufSize : Option UInt64
  interface : Option Ipv4Addr
  shortMax : Option UInt64
  deriving DecidableEq, Repr

/-- The group and port LCM uses when a `udpm://` URL gives none. -/
def defaultGroup : Ipv4Addr := ⟨239, 255, 76, 67⟩

def defaultUdpmPort : UInt16 := 7667

instance : Inhabited Multicast := ⟨⟨defaultGroup, defaultUdpmPort, 0, none, none, none⟩⟩

/-- A relay to connect to. -/
structure Relay where
  host : String
  port : UInt16
  deriving DecidableEq, Repr

/-- The address LCM uses when a `tcpq://` URL gives none. -/
def defaultTcpqHost : String := "127.0.0.1"

def defaultTcpqPort : UInt16 := 7700

/-- What a `file://` bus does with the log. -/
inductive LogMode
  | read
  | write
  | append
  deriving DecidableEq, Repr

/-- The rate of a replay against the times in the log. -/
inductive Speed (F : Type)
  | rate (multiple : F)
  | unthrottled
  deriving DecidableEq, Repr

/-- How to read a log. -/
structure Replay (F : Type) where
  speed : Speed F
  startTimestamp : Option Int64
  deriving DecidableEq, Repr

/-- A log file, in the LCM log format. -/
structure LogFile (F : Type) where
  path : String
  mode : LogMode
  replay : Replay F
  deriving DecidableEq, Repr

/-- A bus to open. -/
inductive BusUrl (F : Type)
  | udpm (multicast : Multicast)
  | tcpq (relay : Relay)
  | file (log : LogFile F)
  deriving DecidableEq, Repr

section Parse

variable {S T : Type}

theorem ok_bind (v : S) (f : S → Except BadUrl T) : (Except.ok v >>= f) = f v := rfl

theorem map_eq_ok {x : Except BadUrl S} {f : S → T} {w : T} :
    (x >>= fun v => pure (f v)) = .ok w ↔ ∃ v, x = .ok v ∧ f v = w := by
  cases x <;> simp [bind, Except.bind, pure, Except.pure]

/-- What follows the scheme of a URL, where it has that one. -/
def stripPrefix (scheme url : String) : Option (List Char) := url.toList.dropPrefix? scheme.toList

def param (fromStr : List Char → Option T) (value : List Char) (url : String)
    (problem : UrlProblem) : Except BadUrl T :=
  match fromStr value with
  | some v => .ok v
  | none => .error ⟨url, problem⟩

/-- One turn of the loop over a query, which passes over a pair without a value. -/
def readPair (read : S → String → List Char → Except BadUrl S) (s : S) (pair : List Char) :
    Except BadUrl S :=
  match Split.once '=' pair with
  | some (key, value) => read s (String.ofList key) value
  | none => .ok s

def readPairs (read : S → String → List Char → Except BadUrl S) (query : Option (List Char))
    (s : S) : Except BadUrl S :=
  (query.toList.flatMap (·.splitOn '&')).foldlM (readPair read) s

/-- A relay, where an empty host is the default one. -/
def relayOf (host : List Char) (port : UInt16) : Relay :=
  ⟨if host = [] then defaultTcpqHost else String.ofList host, port⟩

/-- The relay of a `tcpq://` URL.  The last colon, so an IPv6 host keeps its own. -/
def parseRelay (rest : List Char) (url : String) : Except BadUrl Relay :=
  match Split.rightOnce ':' rest with
  | some (host, port) => do return relayOf host (← param u16FromStr port url .port)
  | none => .ok (relayOf rest defaultTcpqPort)

/-- The group and port of a `udpm://` URL, before what its parameters say. -/
def parseAddress (address : List Char) (url : String) : Except BadUrl Multicast :=
  if address = [] then .ok default
  else do
    let (group, port) := Split.parts ':' address
    let group ← param Ipv4Addr.fromStr group url .group
    -- LCM sends to a unicast group and no peer hears it.
    if ¬ group.isMulticast then .error ⟨url, .notMulticast⟩
    else
      match port with
      | some port =>
        return { (default : Multicast) with group, port := ← param u16FromStr port url .port }
      | none => return { (default : Multicast) with group }

/-- One parameter of a `udpm://` URL.  An unknown one is ignored. -/
def Multicast.read (url : String) (udpm : Multicast) (key : String) (value : List Char) :
    Except BadUrl Multicast :=
  match key with
  | "ttl" => do return { udpm with ttl := ← param u8FromStr value url .ttl }
  | "recv_buf_size" => do
    return { udpm with recvBufSize := some (← param usizeFromStr value url .recvBufSize) }
  | "interface" => do
    return { udpm with interface := some (← param Ipv4Addr.fromStr value url .interface) }
  | "short_max" => do
    let bytes ← param usizeFromStr value url .shortMax
    if ¬ AdmitsShortMax bytes.toNat then .error ⟨url, .shortMax⟩
    else return { udpm with shortMax := some bytes }
  | _ => .ok udpm

def parseUdpm (rest : List Char) (url : String) : Except BadUrl Multicast := do
  let (address, query) := Split.parts '?' rest
  readPairs (Multicast.read url) query (← parseAddress address url)

variable {F : Type} (f64 : F64 F)

/-- One parameter of a `file://` URL. -/
def LogFile.read (url : String) (log : LogFile F) (key : String) (value : List Char) :
    Except BadUrl (LogFile F) :=
  match key with
  | "mode" =>
    match String.ofList value with
    | "r" => .ok { log with mode := .read }
    | "w" => .ok { log with mode := .write }
    | "a" => .ok { log with mode := .append }
    | _ => .error ⟨url, .mode⟩
  | "speed" => do
    let rate ← param f64.fromStr value url .speed
    if f64.isNan rate ∨ f64.isSignNegative rate then .error ⟨url, .speed⟩
    -- `0` is LCM for as fast as the reader goes.
    else return { log with replay.speed := if f64.isZero rate then .unthrottled else .rate rate }
  | "start_timestamp" => do
    return { log with replay.startTimestamp := some (← param i64FromStr value url .startTimestamp) }
  | _ => .ok log

def parseFile (rest : List Char) (url : String) : Except BadUrl (LogFile F) :=
  let (path, query) := Split.parts '?' rest
  if path = [] then .error ⟨url, .noPath⟩
  else readPairs (LogFile.read f64 url) query ⟨String.ofList path, .read, ⟨.rate f64.one, none⟩⟩

/-- Read a `udpm://`, `tcpq://` or `file://` URL. -/
def BusUrl.parse (url : String) : Except BadUrl (BusUrl F) :=
  match stripPrefix "tcpq://" url with
  | some rest => do return .tcpq (← parseRelay rest url)
  | none =>
    match stripPrefix "file://" url with
    | some rest => do return .file (← parseFile f64 rest url)
    | none =>
      match stripPrefix "udpm://" url with
      | some rest => do return .udpm (← parseUdpm rest url)
      | none => .error ⟨url, .scheme⟩

end Parse

section Display

variable {F : Type} (f64 : F64 F)

def Relay.display (relay : Relay) : List Char :=
  [relay.host.toList, ":".toList, Nat.toDigits 10 relay.port.toNat].flatten

/-- What is written of a value that may be there, after what stands before it. -/
def written {T : Type} (before : String) (display : T → List Char) : Option T → List Char
  | some v => before.toList ++ display v
  | none => []

def Multicast.display (udpm : Multicast) : List Char :=
  [udpm.group.display, ":".toList, Nat.toDigits 10 udpm.port.toNat,
    "?ttl=".toList, Nat.toDigits 10 udpm.ttl.toNat,
    written "&recv_buf_size=" (fun bytes => Nat.toDigits 10 bytes.toNat) udpm.recvBufSize,
    written "&interface=" Ipv4Addr.display udpm.interface,
    written "&short_max=" (fun bytes => Nat.toDigits 10 bytes.toNat) udpm.shortMax].flatten

def LogMode.letter : LogMode → Char
  | .read => 'r'
  | .write => 'w'
  | .append => 'a'

def Speed.display : Speed F → List Char
  | .rate multiple => f64.display multiple
  | .unthrottled => "0".toList

def LogFile.display (log : LogFile F) : List Char :=
  [log.path.toList, "?mode=".toList, [log.mode.letter], "&speed=".toList,
    log.replay.speed.display f64,
    written "&start_timestamp=" i64Display log.replay.startTimestamp].flatten

/-- The URL this came from, so a caller can record the bus it reached and read that record back. -/
def BusUrl.display : BusUrl F → String
  | .tcpq relay => "tcpq://" ++ String.ofList relay.display
  | .udpm multicast => "udpm://" ++ String.ofList multicast.display
  | .file log => "file://" ++ String.ofList (log.display f64)

end Display

/-- What a reader of a URL comes to: a value that `P` holds of, or an error that names the URL. -/
def Gives {T : Type} (url : String) (P : T → Prop) : Except BadUrl T → Prop
  | .ok v => P v
  | .error e => e.url = url

section Gives

variable {S T : Type} {url : String} {P : S → Prop} {Q : T → Prop}

theorem Gives.bind {x : Except BadUrl S} {f : S → Except BadUrl T} (hx : Gives url P x)
    (hf : ∀ v, P v → Gives url Q (f v)) : Gives url Q (x >>= f) := by
  cases x with
  | ok v => exact hf v hx
  | error e => exact hx

theorem Gives.map {x : Except BadUrl S} {f : S → T} (hx : Gives url P x)
    (hf : ∀ v, P v → Q (f v)) : Gives url Q (x >>= fun v => pure (f v)) :=
  hx.bind hf

theorem gives_param (fromStr : List Char → Option S) (value : List Char) (problem : UrlProblem) :
    Gives url (fun v => fromStr value = some v) (param fromStr value url problem) := by
  unfold param
  split
  next h => exact h
  next => rfl

/-- What each parameter keeps, the loop over a query keeps. -/
theorem gives_readPairs {read : S → String → List Char → Except BadUrl S}
    (hread : ∀ s key value, P s → Gives url P (read s key value)) (query : Option (List Char)) {s : S}
    (hs : P s) : Gives url P (readPairs read query s) := by
  unfold readPairs
  induction query.toList.flatMap (·.splitOn '&') generalizing s with
  | nil => exact hs
  | cons pair pairs ih =>
    rw [List.foldlM_cons]
    refine Gives.bind ?_ fun s hs => ih hs
    unfold readPair
    split
    · exact hread s _ _ hs
    · exact hs

end Gives

/-- A bus whose group is one, and whose datagrams hold a message. -/
structure Multicast.Admitted (udpm : Multicast) : Prop where
  group : udpm.group.isMulticast = true
  shortMax : ∀ bytes ∈ udpm.shortMax, AdmitsShortMax bytes.toNat

/-- A log at a path, with a rate that is one. -/
structure LogFile.Admitted {F : Type} (f64 : F64 F) (log : LogFile F) : Prop where
  path : log.path ≠ ""
  noQuery : '?' ∉ log.path.toList
  rate : ∀ rate, log.replay.speed = .rate rate → f64.IsRate rate

/-- What `parse` admits of a bus. -/
def BusUrl.Admitted {F : Type} (f64 : F64 F) : BusUrl F → Prop
  | .tcpq relay => relay.host ≠ ""
  | .udpm multicast => multicast.Admitted
  | .file log => log.Admitted f64

section Admitted

variable {url : String}

theorem parseRelay_gives (rest : List Char) (url : String) :
    Gives url (fun relay => relay.host ≠ "") (parseRelay rest url) := by
  have hhost (host : List Char) (port : UInt16) : (relayOf host port).host ≠ "" := by
    unfold relayOf
    split_ifs with h
    · exact (by decide : defaultTcpqHost ≠ "")
    · exact fun hempty => h (by simpa using congrArg String.toList hempty)
  unfold parseRelay
  split
  · exact (gives_param u16FromStr _ .port).map fun _ _ => hhost _ _
  · exact hhost _ _

theorem default_admitted : (default : Multicast).Admitted := ⟨by decide, by rintro _ ⟨⟩⟩

theorem parseAddress_gives (address : List Char) (url : String) :
    Gives url Multicast.Admitted (parseAddress address url) := by
  unfold parseAddress
  split_ifs
  · exact default_admitted
  · rcases Split.parts ':' address with ⟨group, port⟩
    refine (gives_param Ipv4Addr.fromStr group .group).bind fun group _ => ?_
    split_ifs with hgroup
    · cases port with
      | none => exact ⟨hgroup, by rintro _ ⟨⟩⟩
      | some port =>
        exact (gives_param u16FromStr port .port).map fun _ _ => ⟨hgroup, by rintro _ ⟨⟩⟩
    · rfl

theorem Multicast.read_gives (udpm : Multicast) (key : String) (value : List Char)
    (h : udpm.Admitted) : Gives url Multicast.Admitted (Multicast.read url udpm key value) := by
  unfold Multicast.read
  split
  · exact (gives_param u8FromStr value .ttl).map fun _ _ => ⟨h.group, h.shortMax⟩
  · exact (gives_param usizeFromStr value .recvBufSize).map fun _ _ => ⟨h.group, h.shortMax⟩
  · exact (gives_param Ipv4Addr.fromStr value .interface).map fun _ _ => ⟨h.group, h.shortMax⟩
  · refine (gives_param usizeFromStr value .shortMax).bind fun bytes _ => ?_
    split_ifs with hbytes
    · refine ⟨h.group, ?_⟩
      rintro _ ⟨⟩
      exact hbytes
    · rfl
  · exact h

theorem parseUdpm_gives (rest : List Char) (url : String) :
    Gives url Multicast.Admitted (parseUdpm rest url) :=
  (parseAddress_gives _ url).bind fun _ h =>
    gives_readPairs (fun udpm key value hudpm => udpm.read_gives key value hudpm) _ h

variable {F : Type} {f64 : F64 F}

theorem LogFile.read_gives (log : LogFile F) (key : String) (value : List Char)
    (h : log.Admitted f64) : Gives url (LogFile.Admitted f64) (LogFile.read f64 url log key value) := by
  unfold LogFile.read
  split
  · split
    · exact ⟨h.path, h.noQuery, h.rate⟩
    · exact ⟨h.path, h.noQuery, h.rate⟩
    · exact ⟨h.path, h.noQuery, h.rate⟩
    · rfl
  · refine (gives_param f64.fromStr value .speed).bind fun rate _ => ?_
    split_ifs with hrefused hzero
    · rfl
    · exact ⟨h.path, h.noQuery, by rintro _ ⟨⟩⟩
    · refine ⟨h.path, h.noQuery, ?_⟩
      rintro _ ⟨⟩
      simpa [F64.IsRate, and_assoc] using And.intro hrefused hzero
  · exact (gives_param i64FromStr value .startTimestamp).map fun _ _ => ⟨h.path, h.noQuery, h.rate⟩
  · exact h

theorem parseFile_gives (lawful : f64.Lawful) (rest : List Char) (url : String) :
    Gives url (LogFile.Admitted f64) (parseFile f64 rest url) := by
  unfold parseFile
  rcases hparts : Split.parts '?' rest with ⟨path, query⟩
  dsimp only
  split_ifs with hpath
  · rfl
  · refine gives_readPairs (fun log key value hlog => log.read_gives key value hlog) query ⟨?_, ?_, ?_⟩
    · exact fun hempty => hpath (by simpa using congrArg String.toList hempty)
    · simpa using Split.not_mem_of_parts hparts
    · rintro _ ⟨⟩
      exact lawful.one_isRate

/-- What parses is admitted, and an error names the URL that did not. -/
theorem parse_gives (lawful : f64.Lawful) (url : String) :
    Gives url (BusUrl.Admitted f64) (BusUrl.parse f64 url) := by
  unfold BusUrl.parse
  split
  · exact (parseRelay_gives _ url).map fun _ h => h
  · split
    · exact (parseFile_gives lawful _ url).map fun _ h => h
    · split
      · exact (parseUdpm_gives _ url).map fun _ h => h
      · rfl

end Admitted

end LcmBus.Url
