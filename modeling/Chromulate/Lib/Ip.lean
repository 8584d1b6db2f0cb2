import Chromulate.Lib.Text

/-!
# IP addresses as text

The readers behind `Ipv4Addr::from_str` and `Ipv6Addr::from_str`, following the standard
library's recursive descent: a reader takes a text and returns what it read together with the
rest, and parsing succeeds when the rest is empty.
-/

namespace Chromulate.Ip

open Text

def toDigit (radix : Nat) (c : Char) : Option Nat :=
  let value :=
    if '0' ≤ c ∧ c ≤ '9' then some (c.toNat - '0'.toNat)
    else if 'a' ≤ c ∧ c ≤ 'z' then some (c.toNat - 'a'.toNat + 10)
    else if 'A' ≤ c ∧ c ≤ 'Z' then some (c.toNat - 'A'.toNat + 10)
    else none
  value.filter (· < radix)

/-- A number of one to `maxDigits` digits, at most `bound`. A leading zero is refused on longer
numbers unless `allowZeroPrefix`. -/
def readNumber (radix maxDigits bound : Nat) (allowZeroPrefix : Bool) (s : Str) :
    Option (Nat × Str) :=
  let digits := s.takeWhile fun c => (toDigit radix c).isSome
  let value := digits.foldl (fun n c => radix * n + (toDigit radix c).getD 0) 0
  if digits.isEmpty || maxDigits < digits.length then none
  else if !allowZeroPrefix && s.head? == some '0' && 1 < digits.length then none
  else if value ≤ bound then some (value, s.drop digits.length)
  else none

/-- Read `inner` after `sep`, which the first of a series does not have. -/
def readSeparator {α : Type} (sep : Char) (first : Bool) (inner : Str → Option (α × Str))
    (s : Str) : Option (α × Str) :=
  if first then inner s
  else
    match s with
    | c :: rest => if c = sep then inner rest else none
    | [] => none

/-- The remaining `n` octets of a dotted quad. -/
def readOctets : Nat → Bool → Str → Option (List Nat × Str)
  | 0, _, s => some ([], s)
  | n + 1, first, s => do
      let (octet, s) ← readSeparator '.' first (readNumber 10 3 255 false) s
      let (octets, s) ← readOctets n false s
      some (octet :: octets, s)

def readIpv4Addr (s : Str) : Option (List Nat × Str) := readOctets 4 true s

/-- Two groups out of four octets. -/
def groupsOfOctets : List Nat → List Nat
  | [a, b, c, d] => [256 * a + b, 256 * c + d]
  | _ => []

/-- At most `left` colon-separated groups, and whether they ended in an embedded IPv4 address,
for which at least two groups must be left. -/
def readGroups : Nat → Bool → Str → List Nat × Bool × Str
  | 0, _, s => ([], false, s)
  | left + 1, first, s =>
    match if 1 ≤ left then readSeparator ':' first readIpv4Addr s else none with
    | some (octets, rest) => (groupsOfOctets octets, true, rest)
    | none =>
      match readSeparator ':' first (readNumber 16 4 65535 true) s with
      | some (group, rest) =>
        let (groups, embedded, rest) := readGroups left false rest
        (group :: groups, embedded, rest)
      | none => ([], false, s)

def readIpv6Addr (s : Str) : Option (List Nat × Str) :=
  let (front, embedded, rest) := readGroups 8 true s
  if front.length = 8 then some (front, rest)
  else if embedded then none
  else
    match rest with
    | ':' :: ':' :: rest =>
      let (back, _, rest) := readGroups (8 - (front.length + 1)) true rest
      some (front ++ List.replicate (8 - front.length - back.length) 0 ++ back, rest)
    | _ => none

/-- `Ipv4Addr::from_str`. -/
def parseIpv4 (s : Str) : Option (List Nat) :=
  match readIpv4Addr s with
  | some (octets, []) => if byteLen s ≤ 15 then some octets else none
  | _ => none

/-- `Ipv6Addr::from_str`. -/
def parseIpv6 (s : Str) : Option (List Nat) :=
  match readIpv6Addr s with
  | some (groups, []) => some groups
  | _ => none

/-- `IpAddr::from_str` of a host, whose brackets come off first. -/
def isLiteral (host : Str) : Bool :=
  let unbracketed := ((stripPrefix ['['] host).bind (stripSuffix [']'])).getD host
  (parseIpv4 unbracketed).isSome || (parseIpv6 unbracketed).isSome

/-! ## Addresses -/

/-- `IpAddr`, by its bits. -/
inductive IpAddr where
  | v4 (bits : BitVec 32)
  | v6 (bits : BitVec 128)
  deriving DecidableEq

/-- `Ipv4Addr::from_octets`. -/
def ofOctets (octets : List Nat) : BitVec 32 :=
  BitVec.ofNat 32 (octets.foldl (fun n octet => 256 * n + octet) 0)

/-- `Ipv6Addr::from_segments`. -/
def ofGroups (groups : List Nat) : BitVec 128 :=
  BitVec.ofNat 128 (groups.foldl (fun n group => 65536 * n + group) 0)

/-- `IpAddr::from_str`. -/
def parse (s : Str) : Option IpAddr :=
  ((parseIpv4 s).map fun octets => .v4 (ofOctets octets)).or
    ((parseIpv6 s).map fun groups => .v6 (ofGroups groups))

/-- `IpAddr::is_ipv6`. -/
def IpAddr.isV6 : IpAddr → Bool
  | .v4 _ => false
  | .v6 _ => true

def IpAddr.isLoopback : IpAddr → Bool
  | .v4 bits => bits.toNat / 2 ^ 24 = 127
  | .v6 bits => bits = 1

example : parseIpv4 "127.0.0.1".toList = some [127, 0, 0, 1] := by decide
example : parseIpv4 "1.2.3.04".toList = none := by decide
example : parseIpv6 "fe80::1:1.2.3.4".toList = some [0xfe80, 0, 0, 0, 0, 1, 0x102, 0x304] := by
  decide

/-! ## Dotted quads are written one way -/

theorem toDigit_ten (c : Char) :
    toDigit 10 c = if c.isDigit then some (c.toNat - '0'.toNat) else none := by
  have hdigit : c.isDigit ↔ '0' ≤ c ∧ c ≤ '9' := by
    simp [Char.isDigit, Char.le_def]
  unfold toDigit
  by_cases h : c.isDigit
  · have hbounds := toNat_of_isDigit h
    have hzero : '0'.toNat = 48 := rfl
    simp [h, hdigit.mp h]
    omega
  · have hnot : ¬('0' ≤ c ∧ c ≤ '9') := fun hc => h (hdigit.mpr hc)
    rw [if_neg h]
    simp only [hnot, if_false]
    split_ifs <;> simp [Option.filter]

theorem isSome_toDigit_ten (c : Char) : (toDigit 10 c).isSome = c.isDigit := by
  rw [toDigit_ten]
  cases c.isDigit <;> rfl

variable {s : Str} {octets : List Nat} {bits : BitVec 32}

/-- A number of an address is written as it is displayed. -/
theorem eq_of_readNumber {maxDigits bound n : Nat} {rest : Str}
    (h : readNumber 10 maxDigits bound false s = some (n, rest)) :
    s = decimal n ++ rest ∧ n ≤ bound := by
  have hdigits : ∀ c ∈ s.takeWhile Char.isDigit, c.isDigit := fun c hc =>
    List.mem_takeWhile_imp hc
  have hsplit : s = s.takeWhile Char.isDigit ++ s.drop (s.takeWhile Char.isDigit).length :=
    (List.prefix_iff_eq_append.mp (List.takeWhile_prefix _)).symm
  have hhead : ∀ c, (s.takeWhile Char.isDigit).head? = some c → s.head? = some c := by
    intro c hc
    rw [hsplit, List.head?_append, hc, Option.some_or]
  have hvalue : (s.takeWhile Char.isDigit).foldl (fun n c => 10 * n + (toDigit 10 c).getD 0) 0 =
      digitsValue (s.takeWhile Char.isDigit) := by
    refine List.foldl_ext _ _ _ fun m c hc => ?_
    rw [toDigit_ten, if_pos (hdigits c hc)]
    rfl
  simp only [readNumber, funext isSome_toDigit_ten, hvalue] at h
  generalize s.takeWhile Char.isDigit = digits at *
  split_ifs at h with hempty hlead hbound
  simp only [Option.some.injEq, Prod.mk.injEq] at h
  obtain ⟨rfl, rfl⟩ := h
  simp only [Bool.or_eq_true, List.isEmpty_iff, decide_eq_true_eq, not_or] at hempty
  rw [decimal_digitsValue hdigits hempty.1]
  · exact ⟨hsplit, hbound⟩
  · intro hzero
    have hpos := List.length_pos_iff.mpr hempty.1
    simp [hhead _ hzero] at hlead
    omega

/-- Octets as they are written, each after a dot. -/
def writeOctets : List Nat → Str
  | [] => []
  | octet :: octets => '.' :: decimal octet ++ writeOctets octets

theorem eq_of_readSeparator {α : Type} {sep : Char} {inner : Str → Option (α × Str)} {r : α × Str}
    (h : readSeparator sep false inner s = some r) :
    ∃ rest, s = sep :: rest ∧ inner rest = some r := by
  unfold readSeparator at h
  cases s with
  | nil => simp at h
  | cons c rest =>
    simp only [Bool.false_eq_true, if_false] at h
    split_ifs at h with hc
    exact ⟨rest, by rw [hc], h⟩

theorem eq_of_readOctets {n : Nat} {rest : Str} (h : readOctets n false s = some (octets, rest)) :
    s = writeOctets octets ++ rest ∧ octets.length = n ∧ ∀ octet ∈ octets, octet ≤ 255 := by
  induction n generalizing s octets with
  | zero =>
    cases h
    simp [writeOctets]
  | succ n ih =>
    simp only [readOctets, Option.bind_eq_bind, Option.bind_eq_some_iff] at h
    obtain ⟨⟨octet, middle⟩, hread, ⟨more, rest'⟩, hmore, heq⟩ := h
    cases heq
    obtain ⟨digits, rfl, hnumber⟩ := eq_of_readSeparator hread
    obtain ⟨rfl, hbound⟩ := eq_of_readNumber hnumber
    obtain ⟨rfl, rfl, hall⟩ := ih hmore
    exact ⟨by simp [writeOctets], rfl, List.forall_mem_cons.mpr ⟨hbound, hall⟩⟩

/-- **A dotted quad is written one way.** -/
theorem eq_of_parseIpv4 (h : parseIpv4 s = some octets) :
    '.' :: s = writeOctets octets ∧ octets.length = 4 ∧ ∀ octet ∈ octets, octet ≤ 255 := by
  unfold parseIpv4 at h
  split at h
  · rename_i octets' hread
    split_ifs at h
    cases h
    have hdotted : readOctets 4 false ('.' :: s) = some (octets, []) := hread
    obtain ⟨heq, hlength, hall⟩ := eq_of_readOctets hdotted
    exact ⟨by simpa using heq, hlength, hall⟩
  · cases h

theorem ofOctets_inj {a b : List Nat} (ha : a.length = 4) (hb : b.length = 4)
    (ha' : ∀ octet ∈ a, octet ≤ 255) (hb' : ∀ octet ∈ b, octet ≤ 255)
    (h : ofOctets a = ofOctets b) : a = b := by
  match a, b, ha, hb with
  | [a₁, a₂, a₃, a₄], [b₁, b₂, b₃, b₄], _, _ =>
    have hnat := congrArg BitVec.toNat h
    simp only [ofOctets, List.foldl_cons, List.foldl_nil, BitVec.toNat_ofNat,
      List.forall_mem_cons] at hnat ha' hb'
    rw [Nat.mod_eq_of_lt (by omega), Nat.mod_eq_of_lt (by omega)] at hnat
    simp only [List.cons.injEq, and_true]
    omega

theorem parseIpv4_of_parse (h : parse s = some (.v4 bits)) :
    ∃ octets, parseIpv4 s = some octets ∧ bits = ofOctets octets := by
  unfold parse at h
  cases hv4 : parseIpv4 s with
  | none => simp [hv4] at h
  | some octets =>
    simp only [hv4, Option.map_some, Option.some_or, Option.some.injEq, IpAddr.v4.injEq] at h
    exact ⟨octets, rfl, h.symm⟩

theorem parseIpv6_of_parse {bits : BitVec 128} (h : parse s = some (.v6 bits)) :
    ∃ groups, parseIpv6 s = some groups := by
  unfold parse at h
  cases hv6 : parseIpv6 s with
  | none =>
    rw [hv6, Option.map_none, Option.or_none, Option.map_eq_some_iff] at h
    obtain ⟨octets, -, heq⟩ := h
    cases heq
  | some groups => exact ⟨groups, rfl⟩

/-- Texts that read as one IPv4 address are the same. -/
theorem eq_of_parse_v4 {t : Str} (hs : parse s = some (.v4 bits)) (ht : parse t = some (.v4 bits)) :
    s = t := by
  obtain ⟨a, ha, hbits⟩ := parseIpv4_of_parse hs
  obtain ⟨b, hb, hbits'⟩ := parseIpv4_of_parse ht
  obtain ⟨hwa, hla, hba⟩ := eq_of_parseIpv4 ha
  obtain ⟨hwb, hlb, hbb⟩ := eq_of_parseIpv4 hb
  have hsame := ofOctets_inj hla hlb hba hbb (hbits.symm.trans hbits')
  rw [← hsame, ← hwa] at hwb
  exact (List.cons.inj hwb).2.symm

theorem mem_writeOctets {c : Char} (h : c ∈ writeOctets octets) : c = '.' ∨ c.isDigit := by
  induction octets with
  | nil => cases h
  | cons octet octets ih =>
    rcases List.mem_append.mp h with hhead | htail
    · rcases List.mem_cons.mp hhead with rfl | hdigit
      · exact Or.inl rfl
      · exact Or.inr (isDigit_of_mem_decimal hdigit)
    · exact ih htail

theorem getLast_writeOctets (hne : octets ≠ []) :
    ∃ c, (writeOctets octets).getLast? = some c ∧ c.isDigit := by
  induction octets with
  | nil => exact absurd rfl hne
  | cons octet octets ih =>
    cases octets with
    | nil =>
      have hdecimal : decimal octet ≠ [] := by
        rw [decimal_eq]
        exact Nat.toDigits_ne_nil
      refine ⟨_, ?_, isDigit_of_mem_decimal (List.getLast_mem hdecimal)⟩
      simp [writeOctets, List.getLast?_cons, List.getLast?_eq_some_getLast hdecimal]
    | cons next octets =>
      obtain ⟨c, hlast, hdigit⟩ := ih (by simp)
      refine ⟨c, ?_, hdigit⟩
      rw [writeOctets, List.getLast?_append, hlast, Option.some_or]

/-- What a text that reads as an IPv4 address is made of. -/
theorem chars_of_parse_v4 (h : parse s = some (.v4 bits)) :
    (∀ c ∈ s, c = '.' ∨ c.isDigit) ∧ endsWith '.' s = false := by
  obtain ⟨octets, hparse, -⟩ := parseIpv4_of_parse h
  obtain ⟨hwrite, hlength, -⟩ := eq_of_parseIpv4 hparse
  refine ⟨fun c hc => ?_, ?_⟩
  · exact mem_writeOctets (hwrite ▸ List.mem_cons_of_mem _ hc)
  · have hne : octets ≠ [] := fun hnil => by simp [hnil] at hlength
    obtain ⟨c, hlast, hdigit⟩ := getLast_writeOctets hne
    rw [← hwrite, List.getLast?_cons, Option.some.injEq] at hlast
    refine beq_eq_false_iff_ne.mpr fun hdot => ?_
    rw [hdot, Option.getD_some] at hlast
    subst hlast
    cases hdigit

/-- A bracket begins no address. -/
theorem parse_bracket (s : Str) : parse ('[' :: s) = none := rfl

/-- Nor does a dot. -/
theorem parse_dot (s : Str) : parse ('.' :: s) = none := rfl

/-! ## What reads as an IPv6 address -/

/-- What a reader leaves is an end of what it was given. -/
def Takes {α : Type} (read : Str → Option (α × Str)) : Prop :=
  ∀ s r rest, read s = some (r, rest) → rest <:+ s

theorem takes_readNumber (radix maxDigits bound : Nat) (allow : Bool) :
    Takes (readNumber radix maxDigits bound allow) := by
  intro s n rest h
  simp only [readNumber] at h
  split_ifs at h
  simp only [Option.some.injEq, Prod.mk.injEq] at h
  rw [← h.2]
  exact List.drop_suffix _ _

theorem Takes.separated {α : Type} {read : Str → Option (α × Str)} (h : Takes read) (sep : Char)
    (first : Bool) : Takes (readSeparator sep first read) := by
  intro s r rest hread
  cases first with
  | true => exact h s r rest hread
  | false =>
    obtain ⟨tail, rfl, htail⟩ := eq_of_readSeparator hread
    exact (h tail r rest htail).trans (List.suffix_cons _ _)

theorem takes_readOctets (n : Nat) (first : Bool) : Takes (readOctets n first) := by
  induction n generalizing first with
  | zero =>
    intro s r rest h
    cases h
    exact List.suffix_refl _
  | succ n ih =>
    intro s octets rest h
    simp only [readOctets, Option.bind_eq_bind, Option.bind_eq_some_iff] at h
    obtain ⟨⟨octet, middle⟩, hread, ⟨more, rest'⟩, hmore, heq⟩ := h
    cases heq
    exact (ih false _ _ _ hmore).trans
      ((takes_readNumber 10 3 255 false).separated '.' first _ _ _ hread)

theorem readGroups_suffix (left : Nat) (first : Bool) (s : Str) :
    (readGroups left first s).2.2 <:+ s := by
  induction left generalizing first s with
  | zero => exact List.suffix_refl _
  | succ left ih =>
    rw [readGroups]
    split
    · rename_i octets rest hread
      split_ifs at hread
      exact (takes_readOctets 4 true).separated ':' first _ _ _ hread
    · split
      · rename_i group rest hread
        exact (ih false rest).trans
          ((takes_readNumber 16 4 65535 true).separated ':' first _ _ _ hread)
      · exact List.suffix_refl _

/-- Without a colon no group follows another. -/
theorem readGroups_of_no_colon (h : ':' ∉ s) (left : Nat) :
    readGroups left false s = ([], false, s) := by
  have hnone : ∀ {α : Type} (inner : Str → Option (α × Str)),
      readSeparator ':' false inner s = none := by
    intro α inner
    cases s with
    | nil => rfl
    | cons c rest =>
      have hc : c ≠ ':' := fun heq => h (heq ▸ List.mem_cons_self)
      simp [readSeparator, hc]
  cases left with
  | zero => rfl
  | succ left => simp [readGroups, hnone]

theorem parseIpv6_of_no_colon (h : ':' ∉ s) : parseIpv6 s = none := by
  have hfront : ((readGroups 8 true s).1.length ≤ 2) := by
    rw [readGroups]
    split
    · rename_i octets rest hread
      simp only [groupsOfOctets]
      split <;> simp
    · split
      · rename_i group rest hread
        have hrest : ':' ∉ rest := fun hmem =>
          h (((takes_readNumber 16 4 65535 true).separated ':' true _ _ _ hread).subset hmem)
        simp [readGroups_of_no_colon hrest]
      · simp
  have hrest : ':' ∉ (readGroups 8 true s).2.2 := fun hmem =>
    h ((readGroups_suffix 8 true s).subset hmem)
  rcases hparts : readGroups 8 true s with ⟨front, embedded, rest⟩
  rw [hparts] at hfront hrest
  have hlength : front.length ≠ 8 := by
    simp only at hfront
    omega
  simp only [parseIpv6, readIpv6Addr, hparts, if_neg hlength]
  cases embedded with
  | true => rfl
  | false =>
    cases rest with
    | nil => rfl
    | cons c rest =>
      have hc : c ≠ ':' := fun heq => hrest (heq ▸ List.mem_cons_self)
      simp [hc]

end Chromulate.Ip
