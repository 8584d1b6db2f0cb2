import Chromulate.Lib.Ip
import Chromulate.Lib.PublicSuffix

/-!
# Domain and path matching

`chromulate-cookie/src/domain.rs` and `path.rs`. The `psl` crate is the public suffix algorithm
over an arbitrary list of rules.

Two questions are asked about a host and a cookie's domain. *Does the cookie apply?* is suffix
matching on labels (`domainMatches`). *Where is it filed?* is the registrable domain (`siteOf`).
`siteOf_eq_iff` says exactly when a domain that matches a host is filed with it: the host's
public suffix must be shorter than the domain. With a rule nested below the domain it is not.
-/

namespace Chromulate.Cookies

open PublicSuffix Text

variable (rules : List (Rule Str))

/-- `is_ip_literal`: an IPv4 address, or an IPv6 address in brackets. -/
def isIpLiteral (host : Str) : Bool :=
  match (stripPrefix ['['] host).bind (stripSuffix [']']) with
  | some inner => (Ip.parseIpv6 inner).isSome
  | none => (Ip.parseIpv4 host).isSome

def isPublicSuffix (domain : Str) : Bool := (PublicSuffix.domain rules domain).isNone

/-- `domain_matches`: RFC 6265 §5.1.3. -/
def domainMatches (host cookieDomain : Str) : Bool :=
  if host = cookieDomain then true
  else if isIpLiteral host then false
  else
    match stripSuffix cookieDomain host with
    | some front => endsWith '.' front
    | none => false

/-- `site_of`: the registrable domain, or the host itself when there is none. -/
def siteOf (host : Str) : Str :=
  if isIpLiteral host then host else (PublicSuffix.domain rules host).getD host

def isSameSite (a b : Str) : Bool := siteOf rules a = siteOf rules b

/-- `default_path`: the directory of the request path. -/
def defaultPath (requestPath : Str) : Str :=
  if requestPath.head? ≠ some '/' then ['/']
  else
    match beforeLast '/' requestPath with
    | some (c :: cs) => c :: cs
    | _ => ['/']

/-- `path_matches`: a prefix that ends on a segment boundary. -/
def pathMatches (requestPath cookiePath : Str) : Bool :=
  if requestPath = cookiePath then true
  else
    match stripPrefix cookiePath requestPath with
    | some rest => endsWith '/' cookiePath || rest.head? == some '/'
    | none => false

/-! ## What a match looks like -/

variable {host : Str}

theorem domainMatches_iff {domain : Str} :
    domainMatches host domain ↔
      host = domain ∨ isIpLiteral host = false ∧ ∃ front, host = front ++ '.' :: domain := by
  unfold domainMatches
  split
  · simp [*]
  · rename_i hne
    split
    · rename_i hip
      simp [hne, hip]
    · rename_i hip
      rw [Bool.not_eq_true] at hip
      simp only [hne, hip, true_and, false_or]
      split
      · rename_i front hstrip
        have happ : front ++ domain = host := List.append_eq_of_isSuffixOf?_eq_some hstrip
        constructor
        · intro hend
          have hlast : front.getLast? = some '.' := by simpa [endsWith] using hend
          refine ⟨front.dropLast, ?_⟩
          rw [← happ, ← List.dropLast_append_getLast? '.' hlast]
          simp
        · rintro ⟨front', rfl⟩
          have hcancel : front ++ domain = (front' ++ ['.']) ++ domain := by
            rw [happ]
            simp
          have hfront : front = front' ++ ['.'] := List.append_cancel_right hcancel
          simp [endsWith, hfront]
      · rename_i hstrip
        constructor
        · intro h; cases h
        · rintro ⟨front, rfl⟩
          have : stripSuffix domain (front ++ '.' :: domain) = some (front ++ ['.']) := by
            unfold stripSuffix
            rw [List.isSuffixOf?_eq_some_iff_append_eq]
            simp
          rw [this] at hstrip
          cases hstrip

theorem siteOf_of_isIpLiteral (h : isIpLiteral host) : siteOf rules host = host := by
  rw [siteOf, if_pos h]

theorem siteOf_eq_registrable (h : isIpLiteral host = false) :
    siteOf rules host = registrable rules host := by
  simp [siteOf, h, registrable]

/-! ## When a matching domain is filed with the host -/

/-- The number of labels of the public suffix of a name. -/
def publicSuffixLabels (name : Str) : Nat := suffixLen rules (labels name)

/-- The host's public suffix is shorter than the domain: no rule is nested at or below it. A
domain that is itself written like an IP address is filed under its whole text, so there the
suffix must be shorter by exactly one label. -/
def SharesSite (host domain : Str) : Prop :=
  host = domain ∨
    if isIpLiteral domain then publicSuffixLabels rules host + 1 = (labels domain).length
    else publicSuffixLabels rules host < (labels domain).length

instance (host domain : Str) : Decidable (SharesSite rules host domain) := by
  unfold SharesSite
  infer_instance

variable {rules}

/-- **Filing agrees with matching** exactly when no public suffix lies at or below the domain. -/
theorem siteOf_eq_iff {domain : Str} (hmatch : domainMatches host domain) (hne : domain ≠ [])
    (hpublic : isPublicSuffix rules domain = false) :
    siteOf rules domain = siteOf rules host ↔ SharesSite rules host domain := by
  rcases domainMatches_iff.mp hmatch with rfl | ⟨hip, front, rfl⟩
  · simp [SharesSite]
  · have hself : front ++ '.' :: domain ≠ domain := by
      intro h
      have := congrArg List.length h
      simp at this
      omega
    rw [siteOf_eq_registrable rules hip]
    unfold SharesSite publicSuffixLabels
    by_cases hdom : isIpLiteral domain
    · rw [siteOf_of_isIpLiteral rules hdom, eq_registrable_iff hne]
      simp [hself, hdom]
    · rw [Bool.not_eq_true] at hdom
      have hspare : PublicSuffix.domain rules domain ≠ none := by
        intro h
        simp [isPublicSuffix, h] at hpublic
      rw [siteOf_eq_registrable rules hdom, registrable_eq_iff hne hspare]
      simp [hself, hdom]

end Chromulate.Cookies
