import Chromulate.Http.Connect

/-!
# What the bypass list says

`NO_PROXY` on paper (`Covers`) and through the engine. The engine asks the list with the host of
the origin, which for an IPv6 address is in brackets, so nothing in the list about addresses is
ever about an IPv6 host; and an entry that ends with a dot is compared with a host that has lost
its own. Apart from that the list means what it says: `bypass_iff_covered`.
-/

namespace Chromulate.Proxy

open Text

open Ip (IpAddr)

/-! ## On paper -/

/-- What a list consists of. -/
def tokens (raw : Str) : List Str :=
  ((raw.splitOn ',').map trim).filter fun token => !token.isEmpty

/-- The address a text is; brackets are for IPv6. -/
def addressOf (text : Str) : Option IpAddr :=
  let text := toAsciiLowercase text
  match (stripPrefix ['['] text).bind (stripSuffix [']']) with
  | some inner => (Ip.parse inner).filter IpAddr.isV6
  | none => Ip.parse text

/-- A text is the host: addresses are compared as addresses, names in their canonical form. -/
def Names (text : Str) (host : Host) : Prop :=
  match host.address with
  | some address => addressOf text = some address
  | none => canonicalName text = canonicalName host.text

/-- The first bits of two addresses of one family are the same. -/
def SameBlock (length : Nat) : IpAddr → IpAddr → Prop
  | .v4 a, .v4 b => ∀ i < length, a.getMsbD i = b.getMsbD i
  | .v6 a, .v6 b => ∀ i < length, a.getMsbD i = b.getMsbD i
  | _, _ => False

/-- The block of addresses a token is. -/
def blockOf (token : Str) : Option (IpAddr × Nat) := do
  let (network, length) ← splitOnce '/' token
  let network ← Ip.parse network
  let length ← parseUnsigned 255 length
  some (network, length)

/-- What a token of the list is about. -/
inductive Covers (token : Str) (host : Host) : Prop where
  | everything (h : token = "*".toList)
  | localhost (h : toAsciiLowercase token = "localhost".toList)
      (hhost : canonicalName host.text = "localhost".toList ∨
        ∃ address, host.address = some address ∧ address.isLoopback)
  | bare (h : token.head? ≠ some '.') (hnames : Names token host)
  | suffix (name : Str) (h : token = '.' :: name)
      (hsuffix : Names name host ∨ '.' :: canonicalName name <:+ canonicalName host.text)
  | block (network : IpAddr) (length : Nat) (h : blockOf token = some (network, length))
      (address : IpAddr) (haddress : host.address = some address)
      (hsame : SameBlock length address network)

/-! ## Blocks -/

variable {length : Nat} {entry : Entry} {token text : Str} {address : BitVec 128} {host : Host}

theorem getMsbD_mask {width : Nat} (h : length ≤ width) (i : Nat) :
    (mask width length).getMsbD i = decide (i < length) := by
  unfold mask
  split_ifs with hzero
  · simp [hzero]
  · rw [BitVec.getMsbD_shiftLeft, BitVec.getMsbD_allOnes]
    congr 1
    simp only [eq_iff_iff]
    omega

theorem and_mask_eq_iff {width : Nat} (h : length ≤ width) (a b : BitVec width) :
    a &&& mask width length = b &&& mask width length ↔
      ∀ i < length, a.getMsbD i = b.getMsbD i := by
  constructor
  · intro heq i hi
    have hbit := congrArg (fun bits => BitVec.getMsbD bits i) heq
    simpa [BitVec.getMsbD_and, getMsbD_mask h, hi] using hbit
  · intro hbits
    refine BitVec.eq_of_getMsbD_eq fun i _ => ?_
    rw [BitVec.getMsbD_and, BitVec.getMsbD_and, getMsbD_mask h]
    by_cases hi : i < length
    · rw [hbits i hi]
    · simp [hi]

/-- A block of a length its family has holds the addresses that begin like it. -/
theorem ipInCidr_iff {candidate network : IpAddr} (h : length ≤ maxLength network) :
    ipInCidr candidate network length ↔ SameBlock length candidate network := by
  cases candidate <;> cases network <;> simp only [ipInCidr, SameBlock, beq_iff_eq]
  · exact and_mask_eq_iff h _ _
  · simp
  · simp
  · exact and_mask_eq_iff h _ _

/-! ## Reading the list -/

theorem endsWith_of_parseUnsigned {max n : Nat} {s : Str}
    (h : parseUnsigned max s = some n) : s ≠ [] ∧ endsWith '.' s = false := by
  have hdigits : ∀ digits : Str, isDigits digits →
      digits ≠ [] ∧ endsWith '.' digits = false := by
    intro digits hdigits
    simp only [isDigits, Bool.and_eq_true, Bool.not_eq_true', List.isEmpty_eq_false_iff,
      List.all_eq_true] at hdigits
    refine ⟨hdigits.1, beq_eq_false_iff_ne.mpr fun hlast => ?_⟩
    have hdot := hdigits.2 '.' (List.mem_of_getLast? hlast)
    cases hdot
  unfold parseUnsigned at h
  simp only [Option.ite_none_right_eq_some, Bool.and_eq_true] at h
  have hlast := hdigits _ h.1.1
  split at hlast
  · exact ⟨by simp, by rw [endsWith_cons hlast.1]; exact hlast.2⟩
  · exact hlast

theorem parseCidr_ok {network length : Str} (h : parseCidr token network length = .ok entry) :
    ∃ ip bits, Ip.parse network = some ip ∧ parseUnsigned 255 length = some bits ∧
      bits ≤ maxLength ip ∧ entry = .cidr ip bits := by
  unfold parseCidr at h
  cases hip : Ip.parse network with
  | none => simp [hip] at h
  | some ip =>
    cases hbits : parseUnsigned 255 length with
    | none => simp [hip, hbits] at h
    | some bits =>
      simp only [hip, hbits] at h
      split_ifs at h with hlong
      cases h
      exact ⟨ip, bits, rfl, rfl, by omega, rfl⟩

namespace NoProxy

variable {token : Str} {list : NoProxy}

theorem entryOf_cases {entry : Entry} (h : entryOf token = .ok entry) :
    (toAsciiLowercase token = "localhost".toList ∧ entry = .localhost) ∨
    (∃ network length, blockOf token = some (network, length) ∧ length ≤ maxLength network ∧
      endsWith '.' token = false ∧ entry = .cidr network length) ∨
    (∃ name, token = '.' :: name ∧ blockOf token = Option.none ∧
      entry = .suffix (toAsciiLowercase name)) ∨
    (token.head? ≠ some '.' ∧ blockOf token = Option.none ∧
      entry = .exact (toAsciiLowercase token)) := by
  unfold entryOf at h
  split_ifs at h with hlocalhost
  · cases h
    exact Or.inl ⟨hlocalhost, rfl⟩
  · right
    split at h
    · rename_i network length hsplit
      obtain ⟨ip, bits, hip, hbits, hle, rfl⟩ := parseCidr_ok h
      obtain ⟨hne, hlast⟩ := endsWith_of_parseUnsigned hbits
      refine Or.inl ⟨ip, bits, by simp [blockOf, hsplit, hip, hbits], hle, ?_, rfl⟩
      obtain ⟨rfl, -⟩ := splitOnce_eq_some.mp hsplit
      rw [endsWith_append (by simp), endsWith_cons hne]
      exact hlast
    · rename_i hsplit
      have hblock : blockOf token = Option.none := by simp [blockOf, hsplit]
      right
      cases token with
      | nil =>
        cases h
        exact Or.inr ⟨by simp, hblock, rfl⟩
      | cons c rest =>
        by_cases hc : c = '.'
        · subst hc
          cases h
          exact Or.inl ⟨rest, rfl, hblock, rfl⟩
        · have hstrip : stripPrefix ['.'] (c :: rest) = Option.none := by
            simp [stripPrefix, List.isPrefixOf?, Ne.symm hc]
          rw [hstrip] at h
          cases h
          exact Or.inr ⟨by simpa using hc, hblock, rfl⟩

theorem absorb_cases {start : NoProxy} (h : start.absorb token = .ok list) :
    (token = [] ∧ list = start) ∨
    (token = "*".toList ∧ list = { start with matchAll := true }) ∨
    (token ≠ [] ∧ token ≠ "*".toList ∧ ∃ entry, entryOf token = .ok entry ∧
      list = { start with entries := start.entries ++ [entry] }) := by
  unfold absorb at h
  split_ifs at h with hempty hstar
  · cases h
    exact Or.inl ⟨List.isEmpty_iff.mp hempty, rfl⟩
  · cases h
    exact Or.inr (Or.inl ⟨hstar, rfl⟩)
  · split at h
    · cases h
    · rename_i entry hentry
      cases h
      exact Or.inr (Or.inr ⟨by simpa using hempty, hstar, entry, hentry, rfl⟩)

/-- A token of the list is about a host, as `matches` sees the host. -/
def Hits (token host : Str) : Prop :=
  token = "*".toList ∨ token ≠ "*".toList ∧
    ∃ entry, entryOf token = .ok entry ∧ hit host (Ip.parse host) entry

/-- A list matches when one of its tokens hits, and every token of it can be read. -/
theorem hits_of_foldlM (host : Str) {pieces : List Str} {start : NoProxy}
    (h : pieces.foldlM (fun list piece => list.absorb (trim piece)) start = .ok list) :
    ((list.matchAll ∨ ∃ entry ∈ list.entries, hit host (Ip.parse host) entry) ↔
      (start.matchAll ∨ ∃ entry ∈ start.entries, hit host (Ip.parse host) entry) ∨
        ∃ token ∈ pieces.map trim, token ≠ [] ∧ Hits token host) ∧
    ∀ token ∈ pieces.map trim, token ≠ [] → token ≠ "*".toList →
      ∃ entry, entryOf token = .ok entry := by
  induction pieces generalizing start with
  | nil =>
    cases h
    simp
  | cons piece pieces ih =>
    rw [List.foldlM_cons] at h
    cases habsorb : start.absorb (trim piece) with
    | error e =>
      rw [habsorb] at h
      cases h
    | ok middle =>
      rw [habsorb] at h
      obtain ⟨hhits, hread⟩ := ih h
      rw [hhits]
      rcases absorb_cases habsorb with
        ⟨hempty, rfl⟩ | ⟨hstar, rfl⟩ | ⟨hne, hstar, entry, hentry, rfl⟩
      · refine ⟨by simp [hempty], ?_⟩
        simpa [hempty] using hread
      · refine ⟨by simp [hstar, Hits], ?_⟩
        simpa [hstar] using hread
      · refine ⟨?_, ?_⟩
        · have hnow : Hits (trim piece) host ↔ hit host (Ip.parse host) entry := by
            simp only [Hits, hstar, hentry, false_or, ne_eq, not_false_eq_true, true_and,
              Except.ok.injEq, exists_eq_left']
          simp [hne, hnow, or_and_right, exists_or, or_assoc]
        · simp only [List.map_cons, List.forall_mem_cons]
          exact ⟨fun _ _ => ⟨entry, hentry⟩, hread⟩

/-- **`matches`, token by token.** -/
theorem matchesHost_iff {raw : Str} (h : parse raw = .ok list) (host : Str) :
    list.matchesHost host ↔
      ∃ token ∈ tokens raw, Hits token (toAsciiLowercase (host.rdropWhile (· = '.'))) := by
  obtain ⟨hhits, -⟩ := hits_of_foldlM (toAsciiLowercase (host.rdropWhile (· = '.'))) h
  simp only [none, List.not_mem_nil, false_and, exists_false, or_false, Bool.false_eq_true,
    false_or] at hhits
  simp only [matchesHost, Bool.or_eq_true, List.any_eq_true, hhits, tokens, List.mem_filter,
    Bool.not_eq_true', List.isEmpty_eq_false_iff, and_assoc]

theorem entryOf_of_mem {raw : Str} (h : parse raw = .ok list) (hmem : token ∈ tokens raw)
    (hstar : token ≠ "*".toList) : ∃ entry, entryOf token = .ok entry := by
  obtain ⟨hpiece, hne⟩ := List.mem_filter.mp hmem
  exact (hits_of_foldlM [] h).2 token hpiece (by simpa using hne) hstar

end NoProxy

/-! ## The host the list is asked about -/

/-- A URL's host as `matches` sees it. -/
def asked (host : Host) : Str :=
  toAsciiLowercase ((toAsciiLowercase host.text).rdropWhile (· = '.'))

theorem asked_domain (name : Domain) : asked (.domain name) = canonicalName name.text := by
  rw [asked, Host.text, name.rdropWhile_dot, canonicalName, toAsciiLowercase_idem]

theorem asked_ipv4 {address : BitVec 32} (reads : Ip.parse text = some (.v4 address)) :
    asked (.ipv4 text address reads) = text := by
  rw [asked, Host.text, toAsciiLowercase_ipv4 reads,
    rdropWhile_of_not_endsWith (Ip.chars_of_parse_v4 reads).2, toAsciiLowercase_ipv4 reads]

theorem asked_ipv6 (reads : Ip.parse text = some (.v6 address)) (hex : text.all isGroupChar) :
    asked (.ipv6 text address reads hex) = '[' :: text ++ [']'] := by
  have hsmall := toAsciiLowercase_ipv6 hex
  have hlast : endsWith '.' ('[' :: text ++ [']']) = false :=
    (endsWith_append (by simp)).trans (by decide)
  rw [asked, Host.text, hsmall, rdropWhile_of_not_endsWith hlast, hsmall]

/-- It is the canonical form of the host, without a dot at its end. -/
theorem canonicalName_eq_asked (host : Host) : canonicalName host.text = asked host := by
  cases host with
  | domain name => exact (asked_domain name).symm
  | ipv4 text address reads =>
    rw [asked_ipv4, Host.text, canonicalName_of_not_endsWith (Ip.chars_of_parse_v4 reads).2,
      toAsciiLowercase_ipv4 reads]
  | ipv6 text address reads hex =>
    rw [asked_ipv6, Host.text, canonicalName_of_not_endsWith]
    · exact toAsciiLowercase_ipv6 hex
    · exact (endsWith_append (by simp)).trans (by decide)

theorem asked_not_dotted (host : Host) :
    asked host ≠ [] ∧ endsWith '.' (asked host) = false := by
  cases host with
  | domain name =>
    rw [asked_domain]
    exact ⟨name.named, name.dotted⟩
  | ipv4 text address reads =>
    rw [asked_ipv4]
    refine ⟨?_, (Ip.chars_of_parse_v4 reads).2⟩
    rintro rfl
    cases (show none = some _ from reads)
  | ipv6 text address reads hex =>
    rw [asked_ipv6]
    exact ⟨by simp, (endsWith_append (by simp)).trans (by decide)⟩

/-- What `matches` reads the host as: an IPv6 address is not one to it. -/
theorem parse_asked (host : Host) :
    Ip.parse (asked host) = host.address.filter fun address => !address.isV6 := by
  cases host with
  | domain name =>
    rw [asked_domain, name.notAddress]
    rfl
  | ipv4 text address reads =>
    rw [asked_ipv4, reads]
    rfl
  | ipv6 text address reads hex =>
    rw [asked_ipv6]
    exact Ip.parse_bracket _

/-! ## A text that is the host -/

theorem names_of_asked (h : asked host = toAsciiLowercase text) : Names text host := by
  cases host with
  | domain name =>
    have hdot : endsWith '.' text = false := by
      rw [← endsWith_toAsciiLowercase, ← h]
      exact (asked_not_dotted _).2
    show canonicalName text = canonicalName name.text
    rw [canonicalName_of_not_endsWith hdot, ← h, asked_domain]
  | ipv4 text' address reads =>
    rw [asked_ipv4] at h
    have hbracket : stripPrefix ['['] text' = none := by
      cases text' with
      | nil => rfl
      | cons c rest =>
        have hc : '[' ≠ c := by
          rintro rfl
          cases (show none = some _ from reads)
        simp [stripPrefix, List.isPrefixOf?, hc]
    show addressOf text = some (.v4 address)
    simp only [addressOf, ← h, hbracket, Option.bind_none, reads]
  | ipv6 text' address reads hex =>
    rw [asked_ipv6] at h
    have hbracket : (stripPrefix ['['] ('[' :: text' ++ [']'])).bind
        (stripSuffix [']']) = some text' := stripSuffix_concat ']' text'
    show addressOf text = some (.v6 address)
    simp only [addressOf, ← h, hbracket, reads]
    rfl

theorem asked_of_names (hdot : endsWith '.' text = false)
    (hv6 : ∀ address, host.address ≠ some (.v6 address)) (h : Names text host) :
    asked host = toAsciiLowercase text := by
  cases host with
  | domain name =>
    have hsame : canonicalName text = canonicalName name.text := h
    rw [asked_domain, ← hsame, canonicalName_of_not_endsWith hdot]
  | ipv4 text' address reads =>
    have haddress : addressOf text = some (.v4 address) := h
    rw [asked_ipv4]
    unfold addressOf at haddress
    simp only at haddress
    split at haddress
    · obtain ⟨-, hv6⟩ := Option.filter_eq_some_iff.mp haddress
      cases hv6
    · exact Ip.eq_of_parse_v4 reads haddress
  | ipv6 text' address reads hex => exact absurd rfl (hv6 address)

theorem slash_notMem_asked (hv6 : ∀ address, host.address ≠ some (.v6 address)) :
    '/' ∉ asked host := by
  cases host with
  | domain name =>
    rw [asked_domain]
    intro hmem
    obtain ⟨c, hc, hlower⟩ := List.mem_map.mp hmem
    rw [toLower_eq_iff (by decide)] at hlower
    subst hlower
    have hchar := List.all_eq_true.mp name.chars _ (mem_of_mem_withoutDot hc)
    revert hchar
    decide
  | ipv4 text address reads =>
    rw [asked_ipv4]
    intro hmem
    rcases (Ip.chars_of_parse_v4 reads).1 _ hmem with h | h <;> cases h
  | ipv6 text address reads hex => exact absurd rfl (hv6 address)

theorem asked_of_v6 (h : host.address = some (.v6 address)) :
    asked host = host.text ∧ '.' ∉ asked host ∧ ∃ rest, asked host = '[' :: rest := by
  cases host with
  | domain name => cases h
  | ipv4 text address reads => cases h
  | ipv6 text address reads hex =>
    rw [asked_ipv6]
    refine ⟨rfl, fun hdot => ?_, _, rfl⟩
    have hmem : '.' ∈ text := by simpa using hdot
    have hchar := List.all_eq_true.mp hex _ hmem
    revert hchar
    decide

/-! ## Token by token -/

/-- The tokens the engine understands: no dot at the end, and about an IPv6 host only its own text
in brackets. -/
def Plain (token : Str) (host : Host) : Prop :=
  endsWith '.' token = false ∧
    ∀ address, host.address = some (.v6 address) →
      token = "*".toList ∨ toAsciiLowercase token = host.text ∨
        toAsciiLowercase token = '.' :: host.text

theorem not_endsWith_of_suffix {name : Str} (h : asked host = toAsciiLowercase name ∨
      '.' :: toAsciiLowercase name <:+ asked host) :
    name ≠ [] ∧ endsWith '.' name = false := by
  obtain ⟨hne, hdot⟩ := asked_not_dotted host
  have hname : name ≠ [] := by
    rintro rfl
    rcases h with heq | ⟨front, hfront⟩
    · exact hne heq
    · rw [← hfront, endsWith_append (by simp)] at hdot
      cases hdot
  refine ⟨hname, ?_⟩
  have hlower : toAsciiLowercase name ≠ [] := by simpa [toAsciiLowercase] using hname
  rw [← endsWith_toAsciiLowercase]
  rcases h with heq | ⟨front, hfront⟩
  · rwa [← heq]
  · rwa [← hfront, endsWith_append (by simp), endsWith_cons hlower] at hdot

theorem covers_of_hits (h : NoProxy.Hits token (asked host)) :
    Covers token host ∧ Plain token host := by
  rcases h with hstar | ⟨hstar, entry, hentry, hhit⟩
  · exact ⟨.everything hstar, by rw [hstar]; decide, fun _ _ => Or.inl hstar⟩
  rcases NoProxy.entryOf_cases hentry with ⟨hlower, rfl⟩ |
    ⟨network, length, hblock, hle, hdot, rfl⟩ | ⟨name, rfl, -, rfl⟩ | ⟨hhead, -, rfl⟩
  · -- `localhost`
    simp only [NoProxy.hit, Bool.or_eq_true, decide_eq_true_eq, Option.any_eq_true, parse_asked,
      Option.filter_eq_some_iff] at hhit
    refine ⟨.localhost hlower (hhit.imp (canonicalName_eq_asked host).trans ?_), ?_, ?_⟩
    · rintro ⟨address, ⟨haddress, -⟩, hloopback⟩
      exact ⟨address, haddress, hloopback⟩
    · rw [← endsWith_toAsciiLowercase, hlower]
      decide
    · intro address haddress
      obtain ⟨-, -, rest, hbracket⟩ := asked_of_v6 haddress
      rcases hhit with heq | ⟨other, ⟨hother, hv4⟩, -⟩
      · rw [hbracket] at heq
        cases heq
      · rw [haddress] at hother
        cases hother
        cases hv4
  · -- a block
    simp only [NoProxy.hit, Option.any_eq_true, parse_asked, Option.filter_eq_some_iff] at hhit
    obtain ⟨address, ⟨haddress, hv4⟩, hin⟩ := hhit
    refine ⟨.block network length hblock address haddress ((ipInCidr_iff hle).mp hin), hdot, ?_⟩
    intro address' haddress'
    rw [haddress] at haddress'
    cases haddress'
    cases hv4
  · -- a suffix
    simp only [NoProxy.hit, Bool.or_eq_true, decide_eq_true_eq, List.isSuffixOf_iff_suffix] at hhit
    obtain ⟨hne, hdot⟩ := not_endsWith_of_suffix hhit
    refine ⟨.suffix name rfl ?_, ?_, ?_⟩
    · refine hhit.imp names_of_asked fun hsuffix => ?_
      rwa [canonicalName_of_not_endsWith hdot, canonicalName_eq_asked]
    · rwa [endsWith_cons hne]
    · intro address haddress
      obtain ⟨hasked, hnodot, -⟩ := asked_of_v6 haddress
      rcases hhit with heq | ⟨front, hfront⟩
      · exact Or.inr (Or.inr (by simp [← hasked, heq, toAsciiLowercase]))
      · exact absurd (hfront ▸ List.mem_append_right front List.mem_cons_self) hnodot
  · -- a name
    have hhit : asked host = toAsciiLowercase token := by simpa [NoProxy.hit] using hhit
    refine ⟨.bare hhead (names_of_asked hhit), ?_, fun address haddress => ?_⟩
    · rw [← endsWith_toAsciiLowercase, ← hhit]
      exact (asked_not_dotted host).2
    · exact Or.inr (Or.inl (hhit.symm.trans (asked_of_v6 haddress).1))

theorem blockOf_eq_none {c : Char} (hc : ∀ s, Ip.parse (c :: s) = none) (hslash : c ≠ '/')
    (rest : Str) : blockOf (c :: rest) = none := by
  unfold blockOf
  cases hsplit : splitOnce '/' (c :: rest) with
  | none => rfl
  | some parts =>
    obtain ⟨heq, -⟩ := splitOnce_eq_some.mp hsplit
    obtain ⟨network, length⟩ := parts
    cases network with
    | nil => exact absurd (List.cons.inj heq).1 hslash
    | cons d network =>
      have hd : c = d := (List.cons.inj heq).1
      subst hd
      simp [hc]

theorem slash_mem_of_blockOf {block : IpAddr × Nat} (h : blockOf token = some block) :
    '/' ∈ toAsciiLowercase token := by
  unfold blockOf at h
  cases hsplit : splitOnce '/' token with
  | none => simp [hsplit] at h
  | some parts =>
    obtain ⟨heq, -⟩ := splitOnce_eq_some.mp hsplit
    rw [heq]
    exact List.mem_map.mpr ⟨'/', by simp, rfl⟩

/-- What begins with no letter in lower case begins so. -/
theorem eq_cons_of_toAsciiLowercase {d : Char} (hd : d.isAlpha = false) {rest : Str}
    (h : toAsciiLowercase token = d :: rest) :
    ∃ tail, token = d :: tail ∧ toAsciiLowercase tail = rest := by
  cases token with
  | nil => cases h
  | cons c tail =>
    obtain ⟨hc, htail⟩ := List.cons.inj h
    exact ⟨tail, by rw [(toLower_eq_iff hd).mp hc], htail⟩

theorem hits_of_text (haddress : host.address = some (.v6 address)) (hstar : token ≠ "*".toList)
    (hentry : NoProxy.entryOf token = .ok entry) (h : toAsciiLowercase token = host.text ∨
      toAsciiLowercase token = '.' :: host.text) : NoProxy.Hits token (asked host) := by
  obtain ⟨hasked, -, rest, hbracket⟩ := asked_of_v6 haddress
  refine Or.inr ⟨hstar, entry, hentry, ?_⟩
  rw [← hasked] at h
  rcases h with h | h
  · obtain ⟨tail, rfl, -⟩ := eq_cons_of_toAsciiLowercase (by decide) (h.trans hbracket)
    rcases NoProxy.entryOf_cases hentry with ⟨hlower, rfl⟩ | ⟨network, length, hblock, -, -, rfl⟩ |
      ⟨name, hname, -, rfl⟩ | ⟨-, -, rfl⟩
    · cases hlower
    · rw [blockOf_eq_none Ip.parse_bracket (by decide)] at hblock
      cases hblock
    · cases hname
    · simp [NoProxy.hit, h]
  · obtain ⟨tail, rfl, htail⟩ := eq_cons_of_toAsciiLowercase (by decide) h
    rcases NoProxy.entryOf_cases hentry with ⟨hlower, rfl⟩ | ⟨network, length, hblock, -, -, rfl⟩ |
      ⟨name, hname, -, rfl⟩ | ⟨hhead, -, rfl⟩
    · cases hlower
    · rw [blockOf_eq_none Ip.parse_dot (by decide)] at hblock
      cases hblock
    · cases hname
      simp [NoProxy.hit, htail]
    · exact absurd rfl hhead

/-- What is in the list in a form the engine understands it finds. -/
theorem hits_of_covers (hentry : token ≠ "*".toList → NoProxy.entryOf token = .ok entry)
    (hplain : Plain token host) (h : Covers token host) : NoProxy.Hits token (asked host) := by
  by_cases hstar : token = "*".toList
  · exact Or.inl hstar
  have hentry := hentry hstar
  by_cases hv6 : ∃ address, host.address = some (.v6 address)
  · obtain ⟨address, haddress⟩ := hv6
    exact hits_of_text haddress hstar hentry ((hplain.2 address haddress).resolve_left hstar)
  have hv6 : ∀ address, host.address ≠ some (.v6 address) := not_exists.mp hv6
  have hparse : ∀ address, host.address = some address → Ip.parse (asked host) = some address := by
    intro address haddress
    rw [parse_asked, haddress]
    cases address with
    | v4 bits => rfl
    | v6 bits => exact absurd haddress (hv6 bits)
  refine Or.inr ⟨hstar, entry, hentry, ?_⟩
  have hcases := NoProxy.entryOf_cases hentry
  cases h with
  | everything h => exact absurd h hstar
  | localhost hlower hhost =>
    rcases hcases with ⟨-, rfl⟩ | ⟨network, length, hblock, -, -, rfl⟩ | ⟨name, rfl, -, rfl⟩ |
      ⟨-, -, rfl⟩
    · rcases hhost with hname | ⟨address, haddress, hloopback⟩
      · simp [NoProxy.hit, ← canonicalName_eq_asked, hname]
      · simp [NoProxy.hit, hparse address haddress, hloopback]
    · have hslash := slash_mem_of_blockOf hblock
      rw [hlower] at hslash
      exact absurd hslash (by decide)
    · cases hlower
    · rw [NoProxy.entryOf, if_pos hlower] at hentry
      cases hentry
  | bare hhead hnames =>
    have hasked := asked_of_names hplain.1 hv6 hnames
    rcases hcases with ⟨hlower, rfl⟩ | ⟨network, length, hblock, -, -, rfl⟩ |
      ⟨name, rfl, -, rfl⟩ | ⟨-, -, rfl⟩
    · simp [NoProxy.hit, hasked, hlower]
    · exact absurd (hasked ▸ slash_mem_of_blockOf hblock) (slash_notMem_asked hv6)
    · exact absurd rfl hhead
    · simp [NoProxy.hit, hasked]
  | suffix name htoken hsuffix =>
    subst htoken
    rcases hcases with ⟨hlower, rfl⟩ | ⟨network, length, hblock, -, -, rfl⟩ |
      ⟨name', hname, -, rfl⟩ | ⟨hhead, -, rfl⟩
    · cases hlower
    · rw [blockOf_eq_none Ip.parse_dot (by decide)] at hblock
      cases hblock
    · cases hname
      have hne : name ≠ [] := by
        rintro rfl
        cases hplain.1
      have hdot : endsWith '.' name = false := (endsWith_cons hne).symm.trans hplain.1
      rw [canonicalName_of_not_endsWith hdot, canonicalName_eq_asked] at hsuffix
      simp only [NoProxy.hit, Bool.or_eq_true, decide_eq_true_eq, List.isSuffixOf_iff_suffix]
      exact hsuffix.imp_left (asked_of_names hdot hv6)
    · exact absurd rfl hhead
  | block network length hblock address haddress hsame =>
    rcases hcases with ⟨hlower, rfl⟩ | ⟨network', length', hblock', hle, -, rfl⟩ |
      ⟨name, -, hnone, -⟩ | ⟨-, hnone, -⟩
    · have hslash := slash_mem_of_blockOf hblock
      rw [hlower] at hslash
      exact absurd hslash (by decide)
    · rw [hblock] at hblock'
      cases hblock'
      simp [NoProxy.hit, hparse address haddress, (ipInCidr_iff hle).mpr hsame]
    · rw [hblock] at hnone
      cases hnone
    · rw [hblock] at hnone
      cases hnone

/-! ## Through the engine -/

section Engine

open Http (Route)

theorem choose_eq_none_iff {raw : Str} {list : NoProxy} (hparse : NoProxy.parse raw = .ok list)
    (proxyUrl : ProxyUrl) {url : Url} {origin : Origin} {host : Host}
    (hhost : url.host = some host.text) (horigin : Origin.ofUrl url = some origin) :
    (Route.choose origin (some ⟨proxyUrl, list⟩)).proxy = none ↔
      ∃ token ∈ tokens raw, NoProxy.Hits token (asked host) := by
  have hname := Origin.host_of_ofUrl horigin hhost
  rw [asked, ← hname, ← NoProxy.matchesHost_iff hparse]
  simp [Route.choose, Proxy.bypasses]

/-- **`NO_PROXY` through the engine.** A hop goes around the proxy exactly when the list covers its
host, unless all the list says about the host is said with a dot at the end or of an IPv6
address. -/
theorem bypass_iff_covered (raw : Str) {list : NoProxy} (hparse : NoProxy.parse raw = .ok list)
    (proxyUrl : ProxyUrl) (url : Url) (host : Host) (hhost : url.host = some host.text)
    {origin : Origin} (horigin : Origin.ofUrl url = some origin) :
    ((Route.choose origin (some ⟨proxyUrl, list⟩)).proxy = none ↔
        ∃ token ∈ tokens raw, Covers token host) ↔
      ((∃ token ∈ tokens raw, Covers token host) →
        ∃ token ∈ tokens raw, Covers token host ∧ Plain token host) := by
  rw [choose_eq_none_iff hparse proxyUrl hhost horigin]
  constructor
  · intro hiff hcovered
    obtain ⟨token, hmem, hhits⟩ := hiff.mpr hcovered
    exact ⟨token, hmem, covers_of_hits hhits⟩
  · intro hplain
    constructor
    · rintro ⟨token, hmem, hhits⟩
      exact ⟨token, hmem, (covers_of_hits hhits).1⟩
    · intro hcovered
      obtain ⟨token, hmem, hcovers, hunderstood⟩ := hplain hcovered
      by_cases hstar : token = "*".toList
      · exact ⟨token, hmem, Or.inl hstar⟩
      · obtain ⟨entry, hentry⟩ := NoProxy.entryOf_of_mem hparse hmem hstar
        exact ⟨token, hmem, hits_of_covers (fun _ => hentry) hunderstood hcovers⟩

/-- A proxy to go around. -/
def someProxyUrl : ProxyUrl := ⟨.http, "proxy.test".toList, 8080, none, none, by decide⟩

/-- A name in a domain of the list. -/
def apiHost : Host :=
  .domain ⟨"api.example.com".toList, by decide, by decide, by decide, by decide⟩

/-- The loopback address. -/
def loopbackHost : Host := .ipv6 "::1".toList 1 (by decide) (by decide)

theorem bypass_iff_covered_suffix :
    (Route.choose ⟨"https".toList, "api.example.com".toList, 443⟩
      (some ⟨someProxyUrl, ⟨[.suffix "example.com".toList], false⟩⟩)).proxy = none := by
  have hmem : ".Example.com".toList ∈ tokens ".Example.com".toList := by decide
  have hcovers : Covers ".Example.com".toList apiHost :=
    .suffix "Example.com".toList rfl (Or.inr (by decide))
  have hplain : Plain ".Example.com".toList apiHost := ⟨by decide, fun _ h => by cases h⟩
  exact ((bypass_iff_covered ".Example.com".toList rfl someProxyUrl
    (.plain "https" "api.example.com" "/") apiHost rfl rfl).mpr
      fun _ => ⟨_, hmem, hcovers, hplain⟩).mpr ⟨_, hmem, hcovers⟩

/-- The list says `localhost`, and the loopback address goes through the proxy; the list says
`example.com.`, and so does `example.com`. -/
theorem covered_through_proxy :
    (NoProxy.parse "localhost".toList = .ok ⟨[.localhost], false⟩ ∧
      Covers "localhost".toList loopbackHost ∧
      (Url.plain "http" "[::1]" "/").host = some loopbackHost.text ∧
      (Route.choose ⟨"http".toList, "[::1]".toList, 80⟩
        (some ⟨someProxyUrl, ⟨[.localhost], false⟩⟩)).proxy ≠ none) ∧
    (NoProxy.parse "api.example.com.".toList = .ok ⟨[.exact "api.example.com.".toList], false⟩ ∧
      Covers "api.example.com.".toList apiHost ∧
      (Route.choose ⟨"https".toList, "api.example.com".toList, 443⟩
        (some ⟨someProxyUrl, ⟨[.exact "api.example.com.".toList], false⟩⟩)).proxy ≠ none) := by
  refine ⟨⟨rfl, ?_, rfl, by decide⟩, rfl, ?_, by decide⟩
  · exact .localhost rfl (Or.inr ⟨_, rfl, by decide⟩)
  · exact .bare (by decide) (show canonicalName _ = canonicalName _ by decide)

end Engine

end Chromulate.Proxy
