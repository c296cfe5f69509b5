import LcmBus.Bus.BusUrl

/-!
# Bus URLs, out and back

What `impl Display` writes of a bus that `parse` admits, `parse` reads as that bus.

* `pieces`: what is written of a query after its first pair;
* `readPairs_pieces`: a query that is written is read pair by pair;
* `Relay.parse_display`, `Multicast.parse_display` and `LogFile.parse_display`: the three schemes;
* `exists_parse_iff`: the buses that `parse` admits are the ones it gives.
-/

namespace LcmBus.Url

section Query

variable {S : Type} (read : S → String → List Char → Except BadUrl S)

theorem readPair_key {key : String} (h : '=' ∉ key.toList) (value : List Char) (s : S) :
    readPair read s (key.toList ++ '=' :: value) = read s key value := by
  rw [readPair, Split.once_append h]
  exact congrArg (read s · value) String.ofList_toList

theorem readPairs_pieces {piece : List Char} {pieces : List (List Char)} (h : '&' ∉ piece)
    (hs : ∀ piece ∈ pieces, '&' ∉ piece) (s : S) :
    readPairs read (some (piece ++ pieces.flatMap ('&' :: ·))) s =
      (readPair read s piece >>= pieces.foldlM (readPair read)) := by
  rw [readPairs, Option.toList_some, List.flatMap_singleton, Split.splitOn_pieces h hs,
    List.foldlM_cons]

end Query

theorem param_of_some {T : Type} {fromStr : List Char → Option T} {value : List Char} {v : T}
    (h : fromStr value = some v) (url : String) (problem : UrlProblem) :
    param fromStr value url problem = .ok v := by rw [param, h]

/-- What an option puts in a query. -/
def optional {T : Type} (key : String) (display : T → List Char) (o : Option T) :
    List (List Char) :=
  o.toList.map fun v => key.toList ++ '=' :: display v

theorem not_mem_optional {T : Type} {key : String} {display : T → List Char} (h : '&' ∉ key.toList)
    (hdisplay : ∀ v, '&' ∉ display v) {o : Option T} : ∀ piece ∈ optional key display o, '&' ∉ piece := by
  cases o <;> simp [optional, h, hdisplay]

theorem foldlM_optional {S T : Type} {read : S → String → List Char → Except BadUrl S} {key : String}
    {display : T → List Char} (set : Option T → S) {o : Option T}
    (h : ∀ v ∈ o, readPair read (set none) (key.toList ++ '=' :: display v) = .ok (set (some v))) :
    (optional key display o).foldlM (readPair read) (set none) = .ok (set o) := by
  cases o with
  | none => rfl
  | some v =>
    rw [optional, Option.toList_some, List.map_singleton, List.foldlM_cons, h v rfl]
    rfl

theorem written_eq {T : Type} {before key : String}
    (h : before.toList = '&' :: (key.toList ++ ['='])) (display : T → List Char) (o : Option T) :
    written before display o = (optional key display o).flatMap ('&' :: ·) := by
  cases o <;> simp [written, optional, h]

theorem Relay.parse_display {relay : Relay} (h : relay.host ≠ "") (url : String) :
    parseRelay relay.display url = .ok relay := by
  have hport : ':' ∉ Nat.toDigits 10 relay.port.toNat := Decimal.not_mem_toDigits (by decide) _
  have hhost : relay.host.toList ≠ [] := fun hnil => h (String.toList_inj.1 hnil)
  have hdisplay : relay.display = relay.host.toList ++ ':' :: Nat.toDigits 10 relay.port.toNat := by
    simp [display]
  rw [parseRelay, hdisplay, Split.rightOnce_append hport]
  dsimp only
  rw [param_of_some (u16FromStr_toDigits relay.port), ok_bind, relayOf, if_neg hhost,
    String.ofList_toList]
  rfl

namespace Multicast

variable (url : String) (udpm : Multicast)

def pieces : List (List Char) :=
  optional "recv_buf_size" (fun bytes : UInt64 => Nat.toDigits 10 bytes.toNat) udpm.recvBufSize ++
    optional "interface" Ipv4Addr.display udpm.interface ++
    optional "short_max" (fun bytes : UInt64 => Nat.toDigits 10 bytes.toNat) udpm.shortMax

theorem display_eq : udpm.display =
    (udpm.group.display ++ ':' :: Nat.toDigits 10 udpm.port.toNat) ++
      '?' :: (("ttl".toList ++ '=' :: Nat.toDigits 10 udpm.ttl.toNat) ++
        udpm.pieces.flatMap ('&' :: ·)) := by
  have httl : "?ttl=".toList = '?' :: ("ttl".toList ++ ['=']) := by decide
  have hbytes : "&recv_buf_size=".toList = '&' :: ("recv_buf_size".toList ++ ['=']) := by decide
  have haddress : "&interface=".toList = '&' :: ("interface".toList ++ ['=']) := by decide
  have hmost : "&short_max=".toList = '&' :: ("short_max".toList ++ ['=']) := by decide
  simp [display, pieces, written_eq hbytes, written_eq haddress, written_eq hmost, httl]

theorem parseAddress_display (h : udpm.group.isMulticast = true) :
    parseAddress (udpm.group.display ++ ':' :: Nat.toDigits 10 udpm.port.toNat) url =
      .ok { (default : Multicast) with group := udpm.group, port := udpm.port } := by
  have hcolon : ':' ∉ udpm.group.display := Ipv4Addr.not_mem_display (by decide) (by decide) _
  rw [parseAddress, if_neg (by simp), Split.parts_append hcolon]
  simp [param, h, bind, Except.bind, pure, Except.pure]

/-- What a parameter of a `udpm://` URL may be written as. -/
theorem not_mem_pieces : ∀ piece ∈ udpm.pieces, '&' ∉ piece := by
  have hnumber (n : ℕ) : '&' ∉ Nat.toDigits 10 n := Decimal.not_mem_toDigits (by decide) n
  have haddress (address : Ipv4Addr) : '&' ∉ address.display :=
    Ipv4Addr.not_mem_display (by decide) (by decide) address
  simp only [pieces, List.forall_mem_append]
  exact ⟨⟨not_mem_optional (by decide) fun _ => hnumber _, not_mem_optional (by decide) haddress⟩,
    not_mem_optional (by decide) fun _ => hnumber _⟩

theorem readPair_ttl (ttl : UInt8) :
    readPair (Multicast.read url) udpm ("ttl".toList ++ '=' :: Nat.toDigits 10 ttl.toNat) =
      .ok { udpm with ttl } := by
  rw [readPair_key _ (by decide), Multicast.read, param_of_some (u8FromStr_toDigits ttl)]
  rfl

theorem readPair_recvBufSize (bytes : UInt64) :
    readPair (Multicast.read url) udpm ("recv_buf_size".toList ++ '=' :: Nat.toDigits 10 bytes.toNat) =
      .ok { udpm with recvBufSize := some bytes } := by
  rw [readPair_key _ (by decide), Multicast.read, param_of_some (usizeFromStr_toDigits bytes)]
  rfl

theorem readPair_interface (address : Ipv4Addr) :
    readPair (Multicast.read url) udpm ("interface".toList ++ '=' :: address.display) =
      .ok { udpm with interface := some address } := by
  rw [readPair_key _ (by decide), Multicast.read, param_of_some (Ipv4Addr.fromStr_display address)]
  rfl

theorem readPair_shortMax {bytes : UInt64} (h : BusUrl.AdmitsShortMax bytes.toNat) :
    readPair (Multicast.read url) udpm ("short_max".toList ++ '=' :: Nat.toDigits 10 bytes.toNat) =
      .ok { udpm with shortMax := some bytes } := by
  rw [readPair_key _ (by decide), Multicast.read, param_of_some (usizeFromStr_toDigits bytes)]
  exact if_neg (not_not.2 h)

/-- Over the address and the hop limit, the rest of the query is what is left to say. -/
theorem foldlM_pieces (h : udpm.Admitted) :
    udpm.pieces.foldlM (readPair (Multicast.read url))
      ⟨udpm.group, udpm.port, udpm.ttl, none, none, none⟩ = .ok udpm := by
  rcases udpm with ⟨group, port, ttl, recvBufSize, interface, shortMax⟩
  have hbytes := foldlM_optional (fun o => Multicast.mk group port ttl o none none)
    fun bytes (_ : bytes ∈ recvBufSize) => readPair_recvBufSize url _ bytes
  have haddress := foldlM_optional (fun o => Multicast.mk group port ttl recvBufSize o none)
    fun address (_ : address ∈ interface) => readPair_interface url _ address
  have hmost := foldlM_optional (fun o => Multicast.mk group port ttl recvBufSize interface o)
    fun bytes hmem => readPair_shortMax url _ (h.shortMax bytes hmem)
  rw [pieces, List.foldlM_append, List.foldlM_append, hbytes, ok_bind, haddress,
    ok_bind, hmost]

/-- What is written of a group, its URL parses back to. -/
theorem parse_display (h : udpm.Admitted) : parseUdpm udpm.display url = .ok udpm := by
  have haddress : '?' ∉ udpm.group.display ++ ':' :: Nat.toDigits 10 udpm.port.toNat := by
    simp [Ipv4Addr.not_mem_display (show '?'.isDigit = false by decide) (by decide),
      Decimal.not_mem_toDigits (show '?'.isDigit = false by decide)]
  have httl : '&' ∉ "ttl".toList ++ '=' :: Nat.toDigits 10 udpm.ttl.toNat := by
    simp [Decimal.not_mem_toDigits (show '&'.isDigit = false by decide)]
  rw [parseUdpm, display_eq, Split.parts_append haddress]
  dsimp only
  rw [parseAddress_display url udpm h.group, ok_bind, readPairs_pieces _ httl udpm.not_mem_pieces,
    readPair_ttl, ok_bind]
  exact foldlM_pieces url udpm h

end Multicast

namespace LogFile

variable {F : Type} {f64 : F64 F} (url : String) (log : LogFile F)

variable (f64) in
def pieces : List (List Char) :=
  ("speed".toList ++ '=' :: log.replay.speed.display f64) ::
    optional "start_timestamp" i64Display log.replay.startTimestamp

variable (f64) in
theorem display_eq : log.display f64 =
    log.path.toList ++ '?' :: (("mode".toList ++ '=' :: [log.mode.letter]) ++
      (log.pieces f64).flatMap ('&' :: ·)) := by
  have hmode : "?mode=".toList = '?' :: ("mode".toList ++ ['=']) := by decide
  have hspeed : "&speed=".toList = '&' :: ("speed".toList ++ ['=']) := by decide
  have hstart : "&start_timestamp=".toList = '&' :: ("start_timestamp".toList ++ ['=']) := by decide
  simp [display, pieces, written_eq hstart, hmode, hspeed]

theorem not_mem_pieces (lawful : f64.Lawful) : ∀ piece ∈ log.pieces f64, '&' ∉ piece := by
  have hspeed : '&' ∉ log.replay.speed.display f64 := by
    cases log.replay.speed with
    | rate multiple => exact lawful.not_mem_display multiple
    | unthrottled => simp [Speed.display]
  refine List.forall_mem_cons.2 ⟨by simp [hspeed], ?_⟩
  exact not_mem_optional (by decide) fun v => not_mem_i64Display (by decide) (by decide) v

theorem readPair_mode (mode : LogMode) :
    readPair (LogFile.read f64 url) log ("mode".toList ++ '=' :: [mode.letter]) =
      .ok { log with mode } := by
  rw [readPair_key _ (by decide)]
  cases mode <;> rfl

/-- A rate reads back as a rate, and `0` as no rate at all. -/
theorem readPair_speed (lawful : f64.Lawful) {speed : Speed F}
    (h : ∀ rate, speed = .rate rate → f64.IsRate rate) :
    readPair (LogFile.read f64 url) log ("speed".toList ++ '=' :: speed.display f64) =
      .ok { log with replay.speed := speed } := by
  rw [readPair_key _ (by decide), LogFile.read]
  cases speed with
  | rate multiple =>
    obtain ⟨hnan, hsign, hzero⟩ := h multiple rfl
    rw [Speed.display, param_of_some (lawful.fromStr_display multiple hnan), ok_bind]
    simp [hnan, hsign, hzero, pure, Except.pure]
  | unthrottled =>
    obtain ⟨zero, hread, hnan, hsign, hzero⟩ := lawful.fromStr_zero
    rw [Speed.display, show "0".toList = ['0'] by decide, param_of_some hread, ok_bind]
    simp [hnan, hsign, hzero, pure, Except.pure]

theorem readPair_startTimestamp (start : Int64) :
    readPair (LogFile.read f64 url) log ("start_timestamp".toList ++ '=' :: i64Display start) =
      .ok { log with replay.startTimestamp := some start } := by
  rw [readPair_key _ (by decide), LogFile.read, param_of_some (i64FromStr_display start)]
  rfl

/-- What is written of a log, its URL parses back to. -/
theorem parse_display (lawful : f64.Lawful) (h : log.Admitted f64) :
    parseFile f64 (log.display f64) url = .ok log := by
  have hpath : log.path.toList ≠ [] := fun hnil => h.path (String.toList_inj.1 hnil)
  have hmode : '&' ∉ "mode".toList ++ '=' :: [log.mode.letter] := by cases log.mode <;> decide
  rcases log with ⟨path, mode, speed, start⟩
  have hstart : (optional "start_timestamp" i64Display start).foldlM
      (readPair (LogFile.read f64 url)) ⟨path, mode, speed, none⟩ = .ok ⟨path, mode, speed, start⟩ :=
    foldlM_optional (fun o => LogFile.mk path mode ⟨speed, o⟩) fun v _ =>
      readPair_startTimestamp url _ v
  rw [parseFile, display_eq, Split.parts_append h.noQuery]
  dsimp only
  rw [if_neg hpath, readPairs_pieces _ hmode (not_mem_pieces _ lawful), readPair_mode, ok_bind,
    pieces, List.foldlM_cons, readPair_speed url _ lawful h.rate, ok_bind, String.ofList_toList]
  exact hstart

end LogFile

namespace BusUrl

variable {F : Type} {f64 : F64 F}

theorem stripPrefix_append (scheme : String) (rest : List Char) :
    stripPrefix scheme (scheme ++ String.ofList rest) = some rest := by
  rw [stripPrefix, String.toList_append, String.toList_ofList]
  exact List.dropPrefix?_append_of_beq rest (by simp)

theorem parse_tcpq (rest : List Char) : parse f64 ("tcpq://" ++ String.ofList rest) =
    (.tcpq <$> parseRelay rest ("tcpq://" ++ String.ofList rest)) := by
  rw [parse, stripPrefix_append, map_eq_pure_bind]

theorem parse_file (rest : List Char) : parse f64 ("file://" ++ String.ofList rest) =
    (.file <$> parseFile f64 rest ("file://" ++ String.ofList rest)) := by
  have htcpq : stripPrefix "tcpq://" ("file://" ++ String.ofList rest) = none := by
    rw [stripPrefix, String.toList_append, String.toList_ofList]
    rfl
  rw [parse, htcpq, stripPrefix_append, map_eq_pure_bind]

theorem parse_udpm (rest : List Char) : parse f64 ("udpm://" ++ String.ofList rest) =
    (.udpm <$> parseUdpm rest ("udpm://" ++ String.ofList rest)) := by
  have htcpq : stripPrefix "tcpq://" ("udpm://" ++ String.ofList rest) = none := by
    rw [stripPrefix, String.toList_append, String.toList_ofList]
    rfl
  have hfile : stripPrefix "file://" ("udpm://" ++ String.ofList rest) = none := by
    rw [stripPrefix, String.toList_append, String.toList_ofList]
    rfl
  rw [parse, htcpq, hfile, stripPrefix_append, map_eq_pure_bind]

/-- What is written of a bus that a URL may name, its URL parses back to. -/
theorem parse_display (lawful : f64.Lawful) {bus : BusUrl F} (h : bus.Admitted f64) :
    parse f64 (bus.display f64) = .ok bus := by
  cases bus with
  | tcpq relay =>
    rw [display, parse_tcpq, Relay.parse_display h]
    rfl
  | udpm multicast =>
    rw [display, parse_udpm, Multicast.parse_display _ _ h]
    rfl
  | file log =>
    rw [display, parse_file, LogFile.parse_display _ _ lawful h]
    rfl

theorem admitted_of_parse (lawful : f64.Lawful) {url : String} {bus : BusUrl F}
    (h : parse f64 url = .ok bus) : bus.Admitted f64 := by
  have hgives := parse_gives lawful url
  rwa [h] at hgives

/-- The buses that a URL may name are those that `parse` gives. -/
theorem exists_parse_iff (lawful : f64.Lawful) {bus : BusUrl F} :
    (∃ url, parse f64 url = .ok bus) ↔ bus.Admitted f64 := by
  constructor
  · rintro ⟨url, h⟩
    exact admitted_of_parse lawful h
  · exact fun h => ⟨bus.display f64, parse_display lawful h⟩

/-- A URL that parses goes out and comes back. -/
theorem goes_out_and_comes_back (lawful : f64.Lawful) (url : String) (bus : BusUrl F)
    (h : parse f64 url = .ok bus) : parse f64 (bus.display f64) = .ok bus :=
  parse_display lawful (admitted_of_parse lawful h)

/-- The rates that are whole numbers. -/
def wholeRates : F64 ℕ where
  fromStr := Decimal.value
  display := Nat.toDigits 10
  isNan _ := false
  isSignNegative _ := false
  isZero rate := rate = 0
  one := 1

theorem wholeRates_lawful : wholeRates.Lawful where
  fromStr_display rate _ := Decimal.value_toDigits rate
  not_mem_display := Decimal.not_mem_toDigits (by decide)
  fromStr_zero := ⟨0, by decide⟩
  one_isRate := ⟨rfl, rfl, rfl⟩

/-- A log with its parameters out of their order, one of them said again and one unknown. -/
theorem goes_out_and_comes_back_of_log :
    parse wholeRates "file:///tmp/a?speed=2&mode=w&x&start_timestamp=-5&y=1&mode=a" =
      .ok (.file ⟨"/tmp/a", .append, ⟨.rate 2, some (-5)⟩⟩) ∧
    parse wholeRates (display wholeRates (.file ⟨"/tmp/a", .append, ⟨.rate 2, some (-5)⟩⟩)) =
      .ok (.file ⟨"/tmp/a", .append, ⟨.rate 2, some (-5)⟩⟩) := by
  have hparse : parse wholeRates "file:///tmp/a?speed=2&mode=w&x&start_timestamp=-5&y=1&mode=a" =
      .ok (.file ⟨"/tmp/a", .append, ⟨.rate 2, some (-5)⟩⟩) := by decide +kernel
  exact ⟨hparse, goes_out_and_comes_back wholeRates_lawful _ _ hparse⟩

end BusUrl

end LcmBus.Url
