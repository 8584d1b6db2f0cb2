import Chromulate.Lib.Bytes
import Chromulate.Proxy.Url

/-!
# Tunnels

What the engine writes to a proxy to be taken to an origin: the `CONNECT` request of
`chromulate-proxy/src/http_connect.rs` and the address in the request of `socks5.rs`; and what a
proxy reads there, by the grammars of RFC 3986 and RFC 1928.

The host of an origin keeps the brackets of an IPv6 address and `HostPort` expects none. So a
`CONNECT` to an IPv6 origin has its brackets twice, and a SOCKS5 proxy is given the brackets as a
name. Every other origin is named exactly, except that a `CONNECT` to a name with characters no
`reg-name` has is no authority at all: `tunnel_names_origin_iff`.
-/

namespace Chromulate.Proxy

open Text

open Ip (IpAddr)

/-! ## What the engine writes -/

/-- The crate `base64`, of which nothing is assumed. -/
class Base64 where
  encode : Bytes → Str

def ProxyUrl.basicAuthHeaderValue [Base64] (url : ProxyUrl) : Option Str :=
  if url.hasCredentials then
    some ("Basic ".toList ++
      Base64.encode (Bytes.ofStr (url.username.getD [] ++ ':' :: url.password.getD [])))
  else none

/-- The credentials in a `CONNECT` request. -/
def authorization [Base64] (proxy : ProxyUrl) : Str :=
  match proxy.basicAuthHeaderValue with
  | some auth => "Proxy-Authorization: ".toList ++ auth ++ "\r\n".toList
  | none => []

/-- A `CONNECT` request after its target. -/
def connectTail [Base64] (proxy : ProxyUrl) (authority : Str) : Str :=
  " HTTP/1.1\r\nHost: ".toList ++ (authority ++ ("\r\n".toList ++ (authorization proxy ++
    "\r\n".toList)))

/-- The request `http_connect::tunnel` writes. -/
def connectRequest [Base64] (proxy : ProxyUrl) (target : HostPort) : Str :=
  "CONNECT ".toList ++ (target.display ++ connectTail proxy target.display)

/-- What keeps a SOCKS5 request from being written. -/
inductive TunnelError where
  | builder (message : Str)
  | resolve (host : Str)

def pushIpAddress (ip : IpAddr) (port : Nat) : Bytes :=
  (match ip with
    | .v4 bits => 1 :: Bytes.toBe 4 bits.toNat
    | .v6 bits => 4 :: Bytes.toBe 16 bits.toNat) ++
  Bytes.toBe 2 port

def pushDomainAddress (host : Str) (port : Nat) : Except TunnelError Bytes :=
  if 255 < byteLen host then
    .error (.builder ("SOCKS5 domain name `".toList ++ host ++ "` is longer than 255 bytes".toList))
  else
    .ok (3 :: UInt8.ofNat (byteLen host) :: Bytes.ofStr host ++ Bytes.toBe 2 port)

/-- `encode_address`, given what looking up a host finds. -/
def encodeAddress (proxy : ProxyUrl) (target : HostPort) (lookup : HostPort → List IpAddr) :
    Except TunnelError Bytes :=
  match Ip.parse target.host with
  | some ip => .ok (pushIpAddress ip target.port)
  | none =>
    if proxy.scheme = .socks5h then pushDomainAddress target.host target.port
    else
      match lookup target with
      | [] => .error (.resolve target.host)
      | resolved :: _ => .ok (pushIpAddress resolved target.port)

/-- The request `request_connect` writes. -/
def socksRequest (proxy : ProxyUrl) (target : HostPort) (lookup : HostPort → List IpAddr) :
    Except TunnelError Bytes :=
  (encodeAddress proxy target lookup).map fun address => 5 :: 1 :: 0 :: address

/-- The target `Connector::connect` has for an origin. -/
def tunnelTarget (origin : Origin) : HostPort := ⟨origin.host, origin.port⟩

/-! ## What a proxy reads -/

/-- `unreserved` and `sub-delims`. -/
def isRegNameChar (c : Char) : Bool :=
  c.isAlphanum || "-._~!$&'()*+,;=".toList.contains c

/-- `HEXDIG`. -/
def isHexDigit (c : Char) : Bool := (Ip.toDigit 16 c).isSome

/-- A run of the characters of a `reg-name`, of `others` and of `pct-encoded`. -/
def isEncoded (others : Str) : Str → Bool
  | '%' :: a :: b :: rest => isHexDigit a && isHexDigit b && isEncoded others rest
  | c :: rest => (isRegNameChar c || others.contains c) && isEncoded others rest
  | [] => true

/-- A host by RFC 3986. -/
inductive UriHost where
  | ipv6 (address : BitVec 128)
  | ipvFuture (text : Str)
  | ipv4 (address : BitVec 32)
  | regName (name : Str)
  deriving DecidableEq

/-- `IPvFuture`. -/
def isIpvFuture : Str → Bool
  | v :: rest =>
    match splitOnce '.' rest with
    | some (version, address) =>
      (v = 'v' || v = 'V') && !version.isEmpty && version.all isHexDigit &&
        !address.isEmpty && address.all fun c => isRegNameChar c || c = ':'
    | none => false
  | [] => false

/-- `IP-literal`, without its brackets. -/
def readIpLiteral (text : Str) : Option UriHost :=
  match Ip.parse text with
  | some (.v6 address) => some (.ipv6 address)
  | _ => if isIpvFuture text then some (.ipvFuture text) else none

/-- `IPv4address` or `reg-name`, the first that fits. -/
def readName (text : Str) : Option UriHost :=
  match Ip.parse text with
  | some (.v4 address) => some (.ipv4 address)
  | _ => if isEncoded [] text then some (.regName text) else none

/-- What may follow a host: a colon and digits. -/
def readPort : Str → Option (Option Nat)
  | [] => some none
  | c :: digits =>
    if c = ':' ∧ digits.all Char.isDigit then
      some (if digits.isEmpty then none else some (digitsValue digits))
    else none

/-- `host [ ":" port ]`. -/
def readHostPort (text : Str) : Option (UriHost × Option Nat) :=
  match text with
  | '[' :: rest => do
      let (literal, rest) ← splitOnce ']' rest
      let host ← readIpLiteral literal
      let port ← readPort rest
      some (host, port)
  | _ => do
      let host ← readName (text.takeWhile (· ≠ ':'))
      let port ← readPort (text.dropWhile (· ≠ ':'))
      some (host, port)

/-- `authority` of RFC 3986: `[ userinfo "@" ] host [ ":" port ]`. -/
def readAuthority (text : Str) : Option (Option Str × UriHost × Option Nat) :=
  match splitOnce '@' text with
  | some (userinfo, rest) =>
    if isEncoded [':'] userinfo then (readHostPort rest).map fun parts => (some userinfo, parts)
    else none
  | none => (readHostPort text).map fun parts => (none, parts)

/-- The target of a `CONNECT` request. -/
def requestTarget (request : Str) : Option Str :=
  (stripPrefix "CONNECT ".toList request).map fun rest => rest.takeWhile (· ≠ ' ')

/-- A destination by RFC 1928. -/
inductive SocksAddress where
  | ip (address : IpAddr)
  | domain (name : Bytes)
  deriving DecidableEq

/-- `CONNECT` of RFC 1928: the destination and its port. -/
def readSocksRequest : Bytes → Option (SocksAddress × Nat)
  | 5 :: 1 :: 0 :: 1 :: rest =>
    if rest.length = 6 then
      some (.ip (.v4 (.ofNat 32 (Bytes.ofBe (rest.take 4)))), Bytes.ofBe (rest.drop 4))
    else none
  | 5 :: 1 :: 0 :: 4 :: rest =>
    if rest.length = 18 then
      some (.ip (.v6 (.ofNat 128 (Bytes.ofBe (rest.take 16)))), Bytes.ofBe (rest.drop 16))
    else none
  | 5 :: 1 :: 0 :: 3 :: length :: rest =>
    if rest.length = length.toNat + 2 then
      some (.domain (rest.take length.toNat), Bytes.ofBe (rest.drop length.toNat))
    else none
  | _ => none

/-! ## The origin -/

/-- The host of an origin by RFC 3986. -/
def uriHostOf (origin : Origin) : Host → UriHost
  | .domain _ => .regName origin.host
  | .ipv4 _ address _ => .ipv4 address
  | .ipv6 _ address _ _ => .ipv6 address

/-- A destination is the host of an origin. A name under `socks5` is looked up, and any address that
is found may stand for it. -/
def Reaches (scheme : ProxyScheme) (origin : Origin) (host : Host) (found : List IpAddr)
    (address : SocksAddress) : Prop :=
  match host.address with
  | some ip => address = .ip ip
  | none =>
    if scheme = .socks5h then address = .domain (Bytes.ofStr origin.host)
    else ∃ ip ∈ found, address = .ip ip

/-- A name SOCKS5 has no request for: too long to be sent, or not found. -/
def Refused (scheme : ProxyScheme) (origin : Origin) (host : Host) (found : List IpAddr) : Prop :=
  host.address = none ∧ if scheme = .socks5h then 255 < byteLen origin.host else found = []

/-- What is written to a proxy denotes an origin. -/
def NamesOrigin [Base64] (proxy : ProxyUrl) (origin : Origin) (host : Host) : Prop :=
  if proxy.scheme.isSocks5 then
    ∀ lookup, ¬ Refused proxy.scheme origin host (lookup (tunnelTarget origin)) →
      ∃ bytes address, socksRequest proxy (tunnelTarget origin) lookup = .ok bytes ∧
        readSocksRequest bytes = some (address, origin.port) ∧
        Reaches proxy.scheme origin host (lookup (tunnelTarget origin)) address
  else
    (requestTarget (connectRequest proxy (tunnelTarget origin))).bind readAuthority =
      some (none, uriHostOf origin host, some origin.port)

/-! ## Reading back -/

variable {c : Char} {s : Str} {target : HostPort} {port : Nat}

theorem takeWhile_ne {a : Str} (ha : c ∉ a) (b : Str) :
    (a ++ c :: b).takeWhile (· ≠ c) = a ∧ (a ++ c :: b).dropWhile (· ≠ c) = c :: b := by
  have hall : ∀ x ∈ a, decide (x ≠ c) = true := fun x hx => by
    simpa using fun heq : x = c => ha (heq ▸ hx)
  constructor
  · rw [List.takeWhile_append_of_pos hall]
    simp
  · rw [List.dropWhile_append_of_pos hall]
    simp

theorem splitOnce_eq_none (h : c ∉ s) : splitOnce c s = none := by
  cases hsplit : splitOnce c s with
  | none => rfl
  | some parts =>
    obtain ⟨heq, -⟩ := splitOnce_eq_some.mp hsplit
    exact absurd (heq ▸ by simp) h

theorem readPort_decimal (port : Nat) : readPort (':' :: decimal port) = some (some port) := by
  have hdigits := isDigits_decimal port
  simp only [isDigits, Bool.and_eq_true, Bool.not_eq_true'] at hdigits
  simp only [readPort, hdigits.1, hdigits.2, and_self, if_true, Bool.false_eq_true, if_false,
    digitsValue_decimal]

/-- What stands between `front` and the next `c`. -/
theorem takeWhile_stripPrefix {front tail : Str} (hs : c ∉ s) (htail : tail.head? = some c) :
    ((stripPrefix front (front ++ (s ++ tail))).map fun rest => rest.takeWhile (· ≠ c)) =
      some s := by
  obtain ⟨rest, rfl⟩ := List.head?_eq_some_iff.mp htail
  rw [stripPrefix_append, Option.map_some, (takeWhile_ne hs rest).1]

theorem head_append (h : s.head? = some c) (t : Str) : (s ++ t).head? = some c := by
  rw [List.head?_append, h, Option.some_or]

theorem requestTarget_connectRequest [Base64] (proxy : ProxyUrl) (h : ' ' ∉ target.display) :
    requestTarget (connectRequest proxy target) = some target.display :=
  takeWhile_stripPrefix h (head_append (by decide) _)

theorem readAuthority_display (hcolon : ':' ∉ target.host) (hat : '@' ∉ target.host)
    (hbracket : target.host.head? ≠ some '[') :
    readAuthority target.display =
      (readName target.host).map fun host => (none, host, some target.port) := by
  have hdisplay : target.display = target.host ++ ':' :: decimal target.port := by
    rw [HostPort.display, if_neg hcolon]
  have hnoat : '@' ∉ target.display := by
    rw [hdisplay]
    intro hmem
    rcases List.mem_append.mp hmem with hhost | hport
    · exact hat hhost
    · rcases List.mem_cons.mp hport with hc | hdigit
      · cases hc
      · cases isDigit_of_mem_decimal hdigit
  obtain ⟨htake, hdrop⟩ := takeWhile_ne hcolon (decimal target.port)
  rw [readAuthority, splitOnce_eq_none hnoat, hdisplay]
  have hread : readHostPort (target.host ++ ':' :: decimal target.port) =
      (readName target.host).map fun host => (host, some target.port) := by
    unfold readHostPort
    split
    · rename_i rest heq
      refine absurd ?_ hbracket
      cases hhost : target.host with
      | nil =>
        rw [hhost] at heq
        cases heq
      | cons c rest' =>
        rw [hhost] at heq
        cases heq
        rfl
    · rw [htake, hdrop, readPort_decimal]
      cases readName target.host <;> rfl
  simp only [hread, Option.map_map]
  rfl

theorem readAuthority_display_ipv6 {text : Str} (hcolon : ':' ∈ text) (hex : text.all isGroupChar) :
    readAuthority (HostPort.display ⟨'[' :: text ++ [']'], port⟩) = none := by
  have hgroup : ∀ c ∈ text, isGroupChar c := List.all_eq_true.mp hex
  have hclose : ']' ∉ '[' :: text := by
    intro hmem
    rcases List.mem_cons.mp hmem with hc | hc
    · cases hc
    · cases hgroup _ hc
  have hdisplay : HostPort.display ⟨'[' :: text ++ [']'], port⟩ =
      '[' :: ('[' :: text ++ ']' :: (']' :: ':' :: decimal port)) := by
    rw [HostPort.display, if_pos (by simp [hcolon])]
    simp
  have hnoat : '@' ∉ HostPort.display ⟨'[' :: text ++ [']'], port⟩ := by
    have htext : '@' ∉ text := fun hmem => by cases hgroup _ hmem
    have hport : '@' ∉ decimal port := fun hmem => by
      cases isDigit_of_mem_decimal hmem
    rw [hdisplay]
    simp [htext, hport]
  have hliteral : readIpLiteral ('[' :: text) = none := by
    have hfuture : isIpvFuture ('[' :: text) = false := by
      simp only [isIpvFuture]
      split <;> simp
    simp only [readIpLiteral, Ip.parse_bracket, hfuture, Bool.false_eq_true, if_false]
  have hsplit : splitOnce ']' ('[' :: text ++ ']' :: (']' :: ':' :: decimal port)) =
      some ('[' :: text, ']' :: ':' :: decimal port) :=
    splitOnce_eq_some.mpr ⟨rfl, hclose⟩
  rw [readAuthority, splitOnce_eq_none hnoat, hdisplay]
  simp only [readHostPort, hsplit, Option.bind_eq_bind, Option.bind_some, hliteral,
    Option.bind_none, Option.map_none]

theorem readSocksRequest_pushIpAddress (ip : IpAddr) (hport : port < 65536) :
    readSocksRequest (5 :: 1 :: 0 :: pushIpAddress ip port) = some (.ip ip, port) := by
  have hbe : Bytes.ofBe (Bytes.toBe 2 port) = port := Bytes.ofBe_toBe hport
  cases ip with
  | v4 bits =>
    have hbits : Bytes.ofBe (Bytes.toBe 4 bits.toNat) = bits.toNat := Bytes.ofBe_toBe bits.isLt
    simp [pushIpAddress, readSocksRequest, hbits, hbe]
  | v6 bits =>
    have hbits : Bytes.ofBe (Bytes.toBe 16 bits.toNat) = bits.toNat := Bytes.ofBe_toBe bits.isLt
    simp [pushIpAddress, readSocksRequest, hbits, hbe]

theorem readSocksRequest_pushDomainAddress {host : Str} {bytes : Bytes} (hport : port < 65536)
    (h : pushDomainAddress host port = .ok bytes) :
    readSocksRequest (5 :: 1 :: 0 :: bytes) = some (.domain (Bytes.ofStr host), port) := by
  have hbe : Bytes.ofBe (Bytes.toBe 2 port) = port := Bytes.ofBe_toBe hport
  unfold pushDomainAddress at h
  split_ifs at h with hlong
  cases h
  have hlength : (UInt8.ofNat (byteLen host)).toNat = (Bytes.ofStr host).length := by
    rw [Bytes.length_ofStr, UInt8.toNat_ofNat']
    exact Nat.mod_eq_of_lt (by omega)
  simp [readSocksRequest, hlength, hbe]

/-! ## Hosts of origins -/

/-- The characters of a name in a URL, in lower case, leave out the delimiters. -/
theorem notMem_domain (name : Domain) (hc : isDomainChar c = false) (halpha : c.isAlpha = false) :
    c ∉ toAsciiLowercase name.text := by
  intro hmem
  obtain ⟨d, hd, hlower⟩ := List.mem_map.mp hmem
  rw [toLower_eq_iff halpha] at hlower
  subst hlower
  have hchar := List.all_eq_true.mp name.chars _ hd
  simp [hc] at hchar

/-- A name is no address, with its dot or without. -/
theorem parse_domain (name : Domain) : Ip.parse (toAsciiLowercase name.text) = none := by
  by_cases hdot : endsWith '.' name.text
  · -- With the dot at its end it is no dotted quad, and it has no colon.
    have hcolon : ':' ∉ toAsciiLowercase name.text :=
      notMem_domain name (by decide) (by decide)
    cases hparse : Ip.parse (toAsciiLowercase name.text) with
    | none => rfl
    | some ip =>
      cases ip with
      | v4 bits =>
        have hend := (Ip.chars_of_parse_v4 hparse).2
        rw [endsWith_toAsciiLowercase, hdot] at hend
        cases hend
      | v6 bits =>
        obtain ⟨groups, hgroups⟩ := Ip.parseIpv6_of_parse hparse
        rw [Ip.parseIpv6_of_no_colon hcolon] at hgroups
        cases hgroups
  · have hname := name.notAddress
    rwa [canonicalName_of_not_endsWith (by simpa using hdot)] at hname

/-- What a proxy spoken to in HTTP reads of a host without delimiters. -/
theorem connect_reads [Base64] (proxy : ProxyUrl) (target : HostPort)
    (hnot : ∀ c ∈ " :@[".toList, c ∉ target.host) :
    (requestTarget (connectRequest proxy target)).bind readAuthority =
      (readName target.host).map fun host => (none, host, some target.port) := by
  have hcolon : ':' ∉ target.host := hnot ':' (by decide)
  have hbracket : target.host.head? ≠ some '[' := fun hhead =>
    hnot '[' (by decide) (List.mem_of_head? hhead)
  have hnospace : ' ' ∉ target.display := by
    rw [HostPort.display, if_neg hcolon]
    intro hmem
    rcases List.mem_append.mp hmem with hhost | hport
    · exact hnot ' ' (by decide) hhost
    · rcases List.mem_cons.mp hport with hc | hdigit
      · cases hc
      · cases isDigit_of_mem_decimal hdigit
  rw [requestTarget_connectRequest proxy hnospace, Option.bind_some,
    readAuthority_display hcolon (hnot '@' (by decide)) hbracket]

theorem socksRequest_eq_ok {proxy : ProxyUrl} {lookup : HostPort → List IpAddr} {bytes : Bytes} :
    socksRequest proxy target lookup = .ok bytes ↔
      ∃ address, encodeAddress proxy target lookup = .ok address ∧
        bytes = 5 :: 1 :: 0 :: address := by
  unfold socksRequest
  cases encodeAddress proxy target lookup with
  | error e => simp [Except.map]
  | ok address =>
    simp only [Except.map, Except.ok.injEq, exists_eq_left']
    exact eq_comm

/-! ## Kinds of host -/

/-- The digits and dots of an IPv4 address are characters of a `reg-name`. -/
theorem isEncoded_of_all (h : s.all isRegNameChar) : isEncoded [] s := by
  induction s with
  | nil => rfl
  | cons c rest ih =>
    rw [List.all_cons, Bool.and_eq_true] at h
    rw [isEncoded.eq_2]
    · simp [h.1, ih h.2]
    · rintro a b rest' rfl
      cases h.1

section Kinds

variable [Base64] {proxy : ProxyUrl} {origin : Origin}

theorem names_domain {name : Domain} (hhost : origin.host = toAsciiLowercase name.text)
    (hport : origin.port < 65536) :
    NamesOrigin proxy origin (.domain name) ↔
      (proxy.scheme.isSocks5 = false → isEncoded [] origin.host) := by
  have hparse : Ip.parse origin.host = none := hhost ▸ parse_domain name
  have hdelimiters : " :@[".toList.all fun c => !isDomainChar c && !c.isAlpha := by decide
  have hnot : ∀ c ∈ " :@[".toList, c ∉ origin.host := by
    intro c hc
    have hdelimiter := List.all_eq_true.mp hdelimiters c hc
    rw [Bool.and_eq_true, Bool.not_eq_true', Bool.not_eq_true'] at hdelimiter
    exact hhost ▸ notMem_domain name hdelimiter.1 hdelimiter.2
  unfold NamesOrigin
  split_ifs with hsocks
  · refine iff_of_true (fun lookup hsent => ?_) (by simp [hsocks])
    by_cases hscheme : proxy.scheme = .socks5h
    · have hshort : ¬ 255 < byteLen origin.host := by
        simpa [Refused, Host.address, hscheme] using hsent
      obtain ⟨address, hpush⟩ : ∃ address,
          pushDomainAddress origin.host origin.port = .ok address := ⟨_, if_neg hshort⟩
      have hencode : encodeAddress proxy (tunnelTarget origin) lookup = .ok address := by
        simp only [encodeAddress, tunnelTarget, hparse, hscheme, if_true, hpush]
      exact ⟨_, _, socksRequest_eq_ok.mpr ⟨_, hencode, rfl⟩,
        readSocksRequest_pushDomainAddress hport hpush, by simp [Reaches, Host.address, hscheme]⟩
    · have hfound : lookup (tunnelTarget origin) ≠ [] := by
        simpa [Refused, Host.address, hscheme] using hsent
      obtain ⟨resolved, others, hlookup⟩ := List.exists_cons_of_ne_nil hfound
      have hencode : encodeAddress proxy (tunnelTarget origin) lookup =
          .ok (pushIpAddress resolved origin.port) := by
        rw [encodeAddress, hlookup]
        simp only [tunnelTarget, hparse, hscheme, if_false]
      exact ⟨_, _, socksRequest_eq_ok.mpr ⟨_, hencode, rfl⟩,
        readSocksRequest_pushIpAddress _ hport, by simp [Reaches, Host.address, hscheme, hlookup]⟩
  · have hname : readName origin.host =
        if isEncoded [] origin.host then some (.regName origin.host) else none := by
      rw [readName, hparse]
    rw [connect_reads proxy (tunnelTarget origin) hnot,
      show (tunnelTarget origin).host = origin.host from rfl, hname]
    by_cases henc : isEncoded [] origin.host
    · simp [henc, uriHostOf, tunnelTarget]
    · simp [henc, hsocks]

variable {text : Str}

theorem names_ipv4 {address : BitVec 32} (reads : Ip.parse text = some (.v4 address))
    (hhost : origin.host = toAsciiLowercase text) (hport : origin.port < 65536) :
    NamesOrigin proxy origin (.ipv4 text address reads) := by
  rw [toAsciiLowercase_ipv4 reads] at hhost
  have hparse : Ip.parse origin.host = some (.v4 address) := hhost ▸ reads
  have hdelimiters : " :@[".toList.all fun c => !(c.isDigit || c == '.') := by decide
  have hnot : ∀ c ∈ " :@[".toList, c ∉ origin.host := by
    intro c hc hmem
    have hdelimiter := List.all_eq_true.mp hdelimiters c hc
    rcases (Ip.chars_of_parse_v4 hparse).1 c hmem with rfl | hdigit
    · cases hdelimiter
    · simp [hdigit] at hdelimiter
  unfold NamesOrigin
  split_ifs with hsocks
  · intro lookup _
    have hencode : encodeAddress proxy (tunnelTarget origin) lookup =
        .ok (pushIpAddress (.v4 address) origin.port) := by
      simp only [encodeAddress, tunnelTarget, hparse]
    exact ⟨_, _, socksRequest_eq_ok.mpr ⟨_, hencode, rfl⟩,
      readSocksRequest_pushIpAddress _ hport, rfl⟩
  · rw [connect_reads proxy (tunnelTarget origin) hnot,
      show (tunnelTarget origin).host = origin.host from rfl, readName, hparse]
    rfl

theorem not_names_ipv6 {address : BitVec 128} (reads : Ip.parse text = some (.v6 address))
    (hex : text.all isGroupChar)
    (hhost : origin.host = toAsciiLowercase ('[' :: text ++ [']']))
    (hport : origin.port < 65536) : ¬ NamesOrigin proxy origin (.ipv6 text address reads hex) := by
  rw [toAsciiLowercase_ipv6 hex] at hhost
  have hchars : ∀ c ∈ text, isGroupChar c := List.all_eq_true.mp hex
  have hparse : Ip.parse origin.host = none := hhost ▸ Ip.parse_bracket _
  intro hnames
  unfold NamesOrigin at hnames
  split_ifs at hnames with hsocks
  · obtain ⟨bytes, found, hrequest, hread, hreaches⟩ := hnames (fun _ => []) fun h => by cases h.1
    obtain ⟨written, hencode, rfl⟩ := socksRequest_eq_ok.mp hrequest
    simp only [encodeAddress, tunnelTarget, hparse] at hencode
    split_ifs at hencode with hscheme
    -- The brackets go out as a name.
    rw [readSocksRequest_pushDomainAddress hport hencode] at hread
    cases hread
    cases hreaches
  · have hcolon : ':' ∈ text := by
      by_contra hnone
      obtain ⟨groups, hgroups⟩ := Ip.parseIpv6_of_parse reads
      rw [Ip.parseIpv6_of_no_colon hnone] at hgroups
      cases hgroups
    have hspace : ' ' ∉ (tunnelTarget origin).display := by
      have htext : ' ' ∉ text := fun hmem => by cases hchars _ hmem
      have hdigits : ' ' ∉ decimal origin.port := fun hmem => by
        cases isDigit_of_mem_decimal hmem
      simp [HostPort.display, tunnelTarget, hhost, hcolon, htext, hdigits]
    rw [requestTarget_connectRequest proxy hspace, Option.bind_some, tunnelTarget, hhost,
      readAuthority_display_ipv6 hcolon hex] at hnames
    cases hnames

end Kinds

/-- **The tunnel names the origin**: what is written to a proxy denotes the origin's host and port,
unless the host is an IPv6 address, or the proxy is spoken to in HTTP and the host is a name that
no `reg-name` is. -/
theorem tunnel_names_origin_iff [Base64] (proxy : ProxyUrl) (url : Url) (host : Host)
    (hhost : url.host = some host.text) {origin : Origin} (horigin : Origin.ofUrl url = some origin)
    (hport : origin.port < 65536) :
    NamesOrigin proxy origin host ↔
      (∀ address, host.address ≠ some (.v6 address)) ∧
        (proxy.scheme.isSocks5 = false → isEncoded [] origin.host) := by
  have hname := Origin.host_of_ofUrl horigin hhost
  cases host with
  | domain name =>
    rw [names_domain hname hport]
    simp [Host.address]
  | ipv4 text address reads =>
    have hencoded : isEncoded [] origin.host := by
      rw [hname]
      simp only [Host.text, toAsciiLowercase_ipv4 reads]
      refine isEncoded_of_all (List.all_eq_true.mpr fun c hc => ?_)
      rcases (Ip.chars_of_parse_v4 reads).1 c hc with rfl | hdigit
      · decide
      · simp [isRegNameChar, Char.isAlphanum, hdigit]
    refine iff_of_true (names_ipv4 reads hname hport) ⟨fun v6 h => ?_, fun _ => hencoded⟩
    cases h
  | ipv6 text address reads hex =>
    refine iff_of_false (not_names_ipv6 reads hex hname hport) fun h => ?_
    exact h.1 address rfl

/-- An encoding for proxies without credentials. -/
local instance : Base64 := ⟨fun _ => []⟩

theorem plain_proxyTest :
    "proxy.test".toList.all (fun c => c ≠ '@' ∧ c ≠ '[' ∧ c ≠ ']') = true := by decide

/-- A proxy that resolves names. -/
def resolvingProxy : ProxyUrl := ⟨.socks5h, "proxy.test".toList, 1080, none, none, plain_proxyTest⟩

/-- A proxy spoken to in HTTP. -/
def connectProxy : ProxyUrl := ⟨.http, "proxy.test".toList, 8080, none, none, plain_proxyTest⟩

theorem reads_loopback : Ip.parse "::1".toList = some (.v6 1) := by decide

theorem hex_loopback : "::1".toList.all isGroupChar = true := by decide

/-- The host `::1`. -/
def loopbackLiteral : Host := .ipv6 "::1".toList 1 reads_loopback hex_loopback

theorem tunnel_names_origin_dotted :
    NamesOrigin connectProxy ⟨"https".toList, "127.0.0.1".toList, 443⟩
      (.ipv4 "127.0.0.1".toList 0x7f000001 (by decide)) :=
  (tunnel_names_origin_iff connectProxy (.plain "https" "127.0.0.1" "/")
    (.ipv4 "127.0.0.1".toList 0x7f000001 (by decide)) rfl rfl (by decide)).mpr
      ⟨fun _ h => (by cases h), fun _ => by decide⟩

/-- `https://[::1]/`: the `CONNECT` has `[[::1]]:443`, which is no authority, and SOCKS5 is given
the five characters `[::1]` as a name. -/
theorem tunnel_brackets_twice :
    (Url.plain "https" "[::1]" "/").host = some loopbackLiteral.text ∧
      Origin.ofUrl (.plain "https" "[::1]" "/") =
        some ⟨"https".toList, "[::1]".toList, 443⟩ ∧
      requestTarget (connectRequest connectProxy ⟨"[::1]".toList, 443⟩) =
        some "[[::1]]:443".toList ∧
      readAuthority "[[::1]]:443".toList = none ∧
      (socksRequest resolvingProxy ⟨"[::1]".toList, 443⟩ fun _ => []) =
        .ok [5, 1, 0, 3, 5, 91, 58, 58, 49, 93, 1, 187] ∧
      readSocksRequest [5, 1, 0, 3, 5, 91, 58, 58, 49, 93, 1, 187] =
        some (.domain (Bytes.ofStr "[::1]".toList), 443) := by
  refine ⟨rfl, rfl, by decide, by decide, ?_, by decide⟩
  rfl

end Chromulate.Proxy
