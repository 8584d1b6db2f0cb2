import Chromulate.Lib.Ip

/-!
# Hosts

What a URL can have for a host, as the URL standard divides them, and `HostPort` of
`chromulate-core/src/traits.rs`.
-/

namespace Chromulate

open Text

/-! ## Names and addresses -/

/-- A name without the dot it may end with. -/
def withoutDot (name : Str) : Str := (stripSuffix ['.'] name).getD name

/-- The form names are compared in: no dot at the end, and lower case. -/
def canonicalName (name : Str) : Str := toAsciiLowercase (withoutDot name)

/-- The characters a domain can have once it is ASCII: all but the forbidden domain code points. -/
def isDomainChar (c : Char) : Bool :=
  0x20 < c.toNat && c.toNat < 0x7f && !"#%/:<>?@[\\]^|".toList.contains c

/-- A domain as a URL's host. One whose text reads as an address has become that address. -/
structure Domain where
  text : Str
  chars : text.all isDomainChar = true
  named : canonicalName text ≠ []
  dotted : endsWith '.' (canonicalName text) = false
  notAddress : Ip.parse (canonicalName text) = none

variable {s : Str}

theorem withoutDot_of_not_endsWith (h : endsWith '.' s = false) : withoutDot s = s := by
  rw [withoutDot, stripSuffix_eq_none h, Option.getD_none]

theorem withoutDot_concat (s : Str) : withoutDot (s ++ ['.']) = s := by
  rw [withoutDot, stripSuffix_concat, Option.getD_some]

theorem mem_of_mem_withoutDot {c : Char} (h : c ∈ withoutDot s) : c ∈ s := by
  by_cases hdot : endsWith '.' s
  · obtain ⟨front, rfl⟩ := endsWith_iff.mp hdot
    rw [withoutDot_concat] at h
    exact List.mem_append_left _ h
  · rwa [withoutDot_of_not_endsWith (by simpa using hdot)] at h

theorem canonicalName_of_not_endsWith (h : endsWith '.' s = false) :
    canonicalName s = toAsciiLowercase s := by
  rw [canonicalName, withoutDot_of_not_endsWith h]

/-- Taking off all dots at the end takes off the one a domain may have. -/
theorem Domain.rdropWhile_dot (name : Domain) :
    (toAsciiLowercase name.text).rdropWhile (· = '.') = canonicalName name.text := by
  have hdotted := name.dotted
  by_cases hdot : endsWith '.' name.text
  · obtain ⟨front, hfront⟩ := endsWith_iff.mp hdot
    rw [canonicalName, hfront, withoutDot_concat] at hdotted ⊢
    rw [toAsciiLowercase, List.map_append, List.map_singleton]
    refine (List.rdropWhile_concat_pos (· = '.') (front.map Char.toLower) '.' rfl).trans ?_
    exact rdropWhile_of_not_endsWith hdotted
  · have hdot : endsWith '.' name.text = false := by simpa using hdot
    rw [canonicalName_of_not_endsWith hdot, rdropWhile_of_not_endsWith]
    rw [endsWith_toAsciiLowercase, hdot]

/-- What an IPv6 address is written with in a URL. -/
def isGroupChar (c : Char) : Bool := c.isDigit || (97 ≤ c.toNat && c.toNat ≤ 102) || c = ':'

/-- `url::Host`, with the text it is written as. An address is written so that it reads back. -/
inductive Host where
  | domain (name : Domain)
  | ipv4 (text : Str) (address : BitVec 32) (reads : Ip.parse text = some (.v4 address))
  | ipv6 (text : Str) (address : BitVec 128) (reads : Ip.parse text = some (.v6 address))
      (hex : text.all isGroupChar = true)

/-- `Url::host_str`: an IPv6 address stands in brackets. -/
def Host.text : Host → Str
  | .domain name => name.text
  | .ipv4 text _ _ => text
  | .ipv6 text _ _ _ => '[' :: text ++ [']']

/-- The address a host is, if it is one. -/
def Host.address : Host → Option Ip.IpAddr
  | .domain _ => none
  | .ipv4 _ address _ => some (.v4 address)
  | .ipv6 _ address _ _ => some (.v6 address)

theorem isGroupChar_not_upper {c : Char} (h : isGroupChar c) : ¬(65 ≤ c.toNat ∧ c.toNat ≤ 90) := by
  simp only [isGroupChar, Bool.or_eq_true, Bool.and_eq_true, decide_eq_true_eq] at h
  rcases h with (hdigit | hletter) | rfl
  · have hbounds := toNat_of_isDigit hdigit
    omega
  · omega
  · decide

theorem toAsciiLowercase_ipv4 {text : Str} {address : BitVec 32}
    (reads : Ip.parse text = some (.v4 address)) : toAsciiLowercase text = text := by
  refine (List.map_congr_left fun c hc => toLower_of_not_upper ?_).trans (List.map_id _)
  rcases (Ip.chars_of_parse_v4 reads).1 c hc with rfl | hdigit
  · decide
  · have hbounds := toNat_of_isDigit hdigit
    omega

theorem toAsciiLowercase_ipv6 {text : Str} (hex : text.all isGroupChar) :
    toAsciiLowercase ('[' :: text ++ [']']) = '[' :: text ++ [']'] := by
  have hsmall : text.map Char.toLower = text :=
    (List.map_congr_left fun c hc => toLower_of_not_upper
      (isGroupChar_not_upper (List.all_eq_true.mp hex c hc))).trans (List.map_id _)
  simpa [toAsciiLowercase] using hsmall

/-! ## A host and a port -/

structure HostPort where
  host : Str
  port : Nat
  deriving DecidableEq

/-- `HostPort::to_string`. -/
def HostPort.display (target : HostPort) : Str :=
  (if ':' ∈ target.host then '[' :: target.host ++ [']'] else target.host) ++
    ':' :: decimal target.port

end Chromulate
