import Chromulate.Cookies.Date
import Chromulate.Cookies.Domain
import Chromulate.Core.Uri
import Chromulate.Http.Header

/-!
# One cookie

`chromulate-cookie/src/cookie.rs`: parsing a `Set-Cookie` value into a validated cookie, and the
eligibility checks that need nothing but the cookie and the request.

`parse` is the source's one function cut in the places its comments cut it: the pair in front,
the attributes folded one segment at a time, and the domain, path and expiry resolved from them.
The last section says what acceptance implies (**a parsed cookie can go in a header**, **keeps
the promise of its name**, and **is scoped to its host or to a parent of it**), so that nothing
after this file unfolds `parse`.
-/

namespace Chromulate.Cookies

open PublicSuffix Text

inductive SameSite where
  | strict
  | lax
  | none
  deriving DecidableEq

structure Cookie where
  name : Str
  value : Str
  domain : Str
  hostOnly : Bool
  path : Str
  secure : Bool
  httpOnly : Bool
  sameSite : SameSite
  partitioned : Bool
  /-- `none` is a session cookie. -/
  expires : Option SystemTime
  deriving DecidableEq

/-! ## Name prefixes -/

def securePrefix : Str := "__Secure-".toList

def hostPrefix : Str := "__Host-".toList

def startsWithIgnoreAsciiCase (text front : Str) : Bool :=
  toAsciiLowercase (text.take front.length) = toAsciiLowercase front

def carriesANamePrefix (name : Str) : Bool :=
  startsWithIgnoreAsciiCase name hostPrefix || startsWithIgnoreAsciiCase name securePrefix

def keepsNamePrefixPromise (name : Str) (secure hostOnly : Bool) (path : Str) : Bool :=
  if startsWithIgnoreAsciiCase name hostPrefix then secure && hostOnly && path = ['/']
  else if startsWithIgnoreAsciiCase name securePrefix then secure
  else true

variable {name : Str}

theorem keepsNamePrefixPromise_host {path : Str} {secure hostOnly : Bool}
    (h : keepsNamePrefixPromise name secure hostOnly path)
    (hname : startsWithIgnoreAsciiCase name hostPrefix) :
    secure = true ∧ hostOnly = true ∧ path = ['/'] := by
  simpa [keepsNamePrefixPromise, hname, and_assoc] using h

theorem keepsNamePrefixPromise_secure {path : Str} {secure hostOnly : Bool}
    (h : keepsNamePrefixPromise name secure hostOnly path)
    (hname : startsWithIgnoreAsciiCase name securePrefix) : secure = true := by
  unfold keepsNamePrefixPromise at h
  split at h
  · simp only [Bool.and_eq_true] at h
    exact h.1.1
  · simpa [hname] using h

/-! ## Attributes -/

/-- The attributes of a `Set-Cookie` value, before they are resolved against the request. -/
structure Attributes where
  expires : Option SystemTime := none
  maxAge : Option Int := none
  domain : Option Str := none
  path : Option Str := none
  secure : Bool := false
  httpOnly : Bool := false
  sameSite : Option SameSite := none
  partitioned : Bool := false

/-- The value of a `SameSite` attribute; an unknown one counts as absent. -/
def sameSiteOf (value : Str) : Option SameSite :=
  let value := toAsciiLowercase value
  if value = "strict".toList then some .strict
  else if value = "lax".toList then some .lax
  else if value = "none".toList then some .none
  else none

/-- The name and value of an attribute segment. -/
def attributePair (segment : Str) : Str × Option Str :=
  match splitOnce '=' segment with
  | some (name, value) => (toAsciiLowercase (trim name), some (trim value))
  | none => (toAsciiLowercase (trim segment), none)

/-- A `Domain` attribute loses one leading dot; an empty one is ignored. -/
def Attributes.setDomain (attrs : Attributes) (value : Str) : Attributes :=
  let stripped := (stripPrefix ['.'] value).getD value
  if stripped.isEmpty then attrs
  else { attrs with domain := some (toAsciiLowercase stripped) }

/-- The `match` on the attribute's name. -/
def Attributes.set (attrs : Attributes) (name : Str) (value : Option Str) : Attributes :=
  if name = "expires".toList then
    match value.bind Date.parseCookieDate with
    | some time => { attrs with expires := some time }
    | none => attrs
  else if name = "max-age".toList then
    match value.bind parseI64 with
    | some seconds => { attrs with maxAge := some seconds }
    | none => attrs
  else if name = "domain".toList then
    match value with
    | some v => attrs.setDomain v
    | none => attrs
  else if name = "path".toList then
    match value with
    | some v => { attrs with path := some v }
    | none => attrs
  else if name = "secure".toList then { attrs with secure := true }
  else if name = "httponly".toList then { attrs with httpOnly := true }
  else if name = "samesite".toList then
    match value with
    | some v => { attrs with sameSite := sameSiteOf v }
    | none => attrs
  else if name = "partitioned".toList then { attrs with partitioned := true }
  else attrs

/-- One round of the attribute loop. -/
def Attributes.absorb (attrs : Attributes) (segment : Str) : Attributes :=
  let segment := trim segment
  if segment.isEmpty then attrs
  else attrs.set (attributePair segment).1 (attributePair segment).2

/-- The attributes after the first `;` of a `Set-Cookie` value. -/
def attributesOf (raw : Str) : Attributes := (raw.splitOn ';').tail.foldl Attributes.absorb {}

variable {attrs : Attributes}

theorem domain_setDomain_ne_nil (h : attrs.domain ≠ some []) (value : Str) :
    (attrs.setDomain value).domain ≠ some [] := by
  simp only [Attributes.setDomain]
  split
  · exact h
  · rename_i hempty
    simpa [toAsciiLowercase] using hempty

theorem domain_set_ne_nil (h : attrs.domain ≠ some []) (name : Str) (value : Option Str) :
    (attrs.set name value).domain ≠ some [] := by
  unfold Attributes.set
  repeat' split
  all_goals first | exact h | exact domain_setDomain_ne_nil h _

/-- A `Domain` attribute is never recorded empty. -/
theorem domain_absorb_ne_nil (h : attrs.domain ≠ some []) (segment : Str) :
    (attrs.absorb segment).domain ≠ some [] := by
  simp only [Attributes.absorb]
  split
  · exact h
  · exact domain_set_ne_nil h _ _

/-- The `Domain` attribute of a header value, if it has one. -/
def domainAttribute (header : HeaderValue) : Option Str :=
  header.toStr.bind fun raw => (attributesOf raw).domain

theorem domain_attributesOf_ne_nil (raw : Str) : (attributesOf raw).domain ≠ some [] := by
  unfold attributesOf
  have hfold : ∀ (segments : List Str) (attrs : Attributes), attrs.domain ≠ some [] →
      (segments.foldl Attributes.absorb attrs).domain ≠ some [] := by
    intro segments
    induction segments with
    | nil => exact fun attrs h => h
    | cons s segments ih => exact fun attrs h => ih _ (domain_absorb_ne_nil h s)
  exact hfold _ {} (by simp)

/-! ## Parsing -/

/-- `MAX_COOKIE_LIFETIME`: 400 days. -/
def maxCookieLifetime : Duration := Duration.fromSecs (400 * 24 * 60 * 60)

/-- A value in double quotes loses them. -/
def unquote (value : Str) : Str :=
  ((stripPrefix ['"'] value).bind (stripSuffix ['"'])).getD value

/-- The name and value in front of the attributes. -/
def namePair (raw : Str) : Option (Str × Str) := do
  let first ← (raw.splitOn ';').head?
  let (name, value) ← splitOnce '=' (trim first)
  if (trim name).isEmpty then none
  else some (trim name, unquote (trim value))

/-- The domain a cookie is scoped to, and whether to that host alone. -/
def resolveDomain (rules : List (Rule Str)) (host : Str) : Option Str → Option (Str × Bool)
  | none => some (host, true)
  | some d =>
    if isIpLiteral host then if d = host then some (host, true) else none
    else if isPublicSuffix rules d || !domainMatches host d then none
    else some (d, false)

/-- A `Path` attribute counts when it is absolute. -/
def resolvePath (requestPath : Str) (attr : Option Str) : Str :=
  match attr with
  | some p => if p.head? = some '/' then p else defaultPath requestPath
  | none => defaultPath requestPath

/-- `Max-Age` wins over `Expires`, and both stay within the lifetime cap. -/
def resolveExpires (attrs : Attributes) (now : SystemTime) : Option SystemTime :=
  let cap := (SystemTime.checkedAdd now maxCookieLifetime).getD now
  match attrs.maxAge with
  | some seconds =>
    if seconds ≤ 0 then some now
    else
      let requested := (SystemTime.checkedAdd now (Duration.fromSecs seconds.toNat)).getD cap
      some (min requested cap)
  | none => attrs.expires.map fun e => min e cap

/-- The name-prefix rules of RFC 6265bis: a secure origin, and the promise kept. `Domain` counts
as present even where it was resolved to the host alone. -/
def prefixRefused (name : Str) (requestIsSecure : Bool) (attrs : Attributes) (path : Str) : Bool :=
  carriesANamePrefix name &&
    (!requestIsSecure || !keepsNamePrefixPromise name attrs.secure attrs.domain.isNone path)

def Cookie.parse (rules : List (Rule Str)) (header : HeaderValue) (requestHost requestPath : Str)
    (requestIsSecure : Bool) (now : SystemTime) : Option Cookie := do
  let raw ← header.toStr
  let (name, value) ← namePair raw
  let attrs := attributesOf raw
  let (domain, hostOnly) ← resolveDomain rules requestHost attrs.domain
  let path := resolvePath requestPath attrs.path
  let sameSite := attrs.sameSite.getD .lax
  if sameSite = .none && !attrs.secure then none
  else if prefixRefused name requestIsSecure attrs path then none
  else
    some
      { name, value, domain, hostOnly, path
        secure := attrs.secure
        httpOnly := attrs.httpOnly
        sameSite
        partitioned := attrs.partitioned
        expires := resolveExpires attrs now }

/-! ## Eligibility -/

def Cookie.isExpired (cookie : Cookie) (now : SystemTime) : Bool :=
  match cookie.expires with
  | some expiry => expiry ≤ now
  | none => false

def Cookie.appliesTo (cookie : Cookie) (requestHost requestPath : Str) (requestIsSecure : Bool) :
    Bool :=
  if cookie.secure && !requestIsSecure then false
  else
    let hostMatches :=
      if cookie.hostOnly then decide (requestHost = cookie.domain)
      else domainMatches requestHost cookie.domain
    hostMatches && pathMatches requestPath cookie.path

def Cookie.sameSiteEligible (rules : List (Rule Str)) (cookie : Cookie) (requestHost : Str)
    (context : CookieContext) : Bool :=
  let sameSite := context.initiator.any fun initiator => isSameSite rules initiator.host requestHost
  match cookie.sameSite with
  | .none => true
  | .lax => sameSite || context.isTopLevelNavigation
  | .strict => sameSite

/-! ## What a parsed cookie is -/

/-- `is_representable` (`jar.rs`): the pair can be put in a `Cookie` header and read back. -/
def isRepresentable (name value : Str) : Bool :=
  !name.isEmpty && name.all isHeaderSafe && value.all isHeaderSafe &&
    !(name.contains ';' || name.contains '=') && !value.contains ';'

theorem isRepresentable_iff {value : Str} :
    isRepresentable name value ↔
      name ≠ [] ∧ (∀ c ∈ name, isHeaderSafe c) ∧ (∀ c ∈ value, isHeaderSafe c) ∧
        ';' ∉ name ∧ '=' ∉ name ∧ ';' ∉ value := by
  simp [isRepresentable, and_assoc]

/-- What each part of `parse` found, for an accepted value. -/
structure Parsed (rules : List (Rule Str)) (header : HeaderValue) (requestHost requestPath : Str)
    (requestIsSecure : Bool) (now : SystemTime) (cookie : Cookie) (raw : Str) : Prop where
  text : header.toStr = some raw
  pair : namePair raw = some (cookie.name, cookie.value)
  scope : resolveDomain rules requestHost (attributesOf raw).domain =
    some (cookie.domain, cookie.hostOnly)
  path : cookie.path = resolvePath requestPath (attributesOf raw).path
  secure : cookie.secure = (attributesOf raw).secure
  expires : cookie.expires = resolveExpires (attributesOf raw) now
  promise : prefixRefused cookie.name requestIsSecure (attributesOf raw) cookie.path = false

section Parsed

variable {rules : List (Rule Str)} {header : HeaderValue} {requestHost requestPath : Str}
  {requestIsSecure : Bool} {now : SystemTime} {cookie : Cookie}

theorem parsed_of_parse
    (h : Cookie.parse rules header requestHost requestPath requestIsSecure now = some cookie) :
    ∃ raw, Parsed rules header requestHost requestPath requestIsSecure now cookie raw := by
  simp only [Cookie.parse, Option.bind_eq_bind, Option.bind_eq_some_iff] at h
  obtain ⟨raw, htext, ⟨name, value⟩, hpair, ⟨domain, hostOnly⟩, hscope, h⟩ := h
  split at h
  · cases h
  · split at h
    · cases h
    · rename_i hpromise
      cases h
      exact ⟨raw, htext, hpair, hscope, rfl, rfl, rfl, by simpa using hpromise⟩

theorem mem_of_mem_unquote {value : Str} {c : Char} (h : c ∈ unquote value) : c ∈ value := by
  unfold unquote at h
  cases hq : (stripPrefix ['"'] value).bind (stripSuffix ['"']) with
  | none => simpa [hq] using h
  | some inner =>
    rw [hq, Option.getD_some] at h
    obtain ⟨rest, hrest, hinner⟩ := Option.bind_eq_some_iff.mp hq
    have hfront : ['"'] ++ rest = value := List.append_eq_of_isPrefixOf?_eq_some hrest
    have hback : inner ++ ['"'] = rest := List.append_eq_of_isSuffixOf?_eq_some hinner
    rw [← hfront, ← hback]
    simp [h]

/-- The name and value are pieces of the first segment, cut at its first `=`. -/
theorem namePair_spec {raw name value : Str} (h : namePair raw = some (name, value)) :
    name ≠ [] ∧ '=' ∉ name ∧ (∃ s, name = trim s) ∧
      ∃ first ∈ raw.splitOn ';', (∀ c ∈ name, c ∈ first) ∧ ∀ c ∈ value, c ∈ first := by
  simp only [namePair, Option.bind_eq_bind, Option.bind_eq_some_iff] at h
  obtain ⟨first, hfirst, ⟨n, v⟩, hsplit, h⟩ := h
  split at h
  · cases h
  · rename_i hne
    cases h
    obtain ⟨hcut, hn⟩ := splitOnce_eq_some.mp hsplit
    have hsub : ∀ c ∈ trim first, c ∈ first := fun c => mem_of_mem_trimMatches
    refine ⟨by simpa using hne, fun hc => hn (mem_of_mem_trimMatches hc), ⟨n, rfl⟩, first,
      List.mem_of_mem_head? hfirst, fun c hc => hsub c ?_, fun c hc => hsub c ?_⟩
    · have hcn : c ∈ n := mem_of_mem_trimMatches hc
      rw [hcut]
      simp [hcn]
    · have hcv : c ∈ v := mem_of_mem_trimMatches (mem_of_mem_unquote hc)
      rw [hcut]
      simp [hcv]

/-- **A parsed cookie can go in a header.** -/
theorem isRepresentable_of_parse
    (h : Cookie.parse rules header requestHost requestPath requestIsSecure now = some cookie) :
    isRepresentable cookie.name cookie.value := by
  obtain ⟨raw, hp⟩ := parsed_of_parse h
  obtain ⟨hne, heq, -, first, hfirst, hname, hvalue⟩ := namePair_spec hp.pair
  have hsafe : ∀ c ∈ first, isHeaderSafe c :=
    fun c hc => HeaderValue.safe_of_toStr hp.text c (mem_of_mem_splitOn hfirst hc)
  have hsemi : ';' ∉ first := not_mem_of_mem_splitOn hfirst
  exact isRepresentable_iff.mpr ⟨hne, fun c hc => hsafe c (hname c hc),
    fun c hc => hsafe c (hvalue c hc), fun hc => hsemi (hname _ hc), heq,
    fun hc => hsemi (hvalue _ hc)⟩

theorem head_name_of_parse
    (h : Cookie.parse rules header requestHost requestPath requestIsSecure now = some cookie)
    {c : Char} (hc : cookie.name.head? = some c) : isWhitespace c = false := by
  obtain ⟨raw, hp⟩ := parsed_of_parse h
  obtain ⟨-, -, ⟨s, hs⟩, -⟩ := namePair_spec hp.pair
  rw [hs] at hc
  exact head_trimMatches hc

theorem Parsed.domainAttribute_eq {raw : Str}
    (h : Parsed rules header requestHost requestPath requestIsSecure now cookie raw) :
    domainAttribute header = (attributesOf raw).domain := by
  rw [domainAttribute, h.text, Option.bind_some]

/-- **A parsed cookie is scoped** to its host alone, or to the domain it names, which the host
lies in and which is no public suffix. -/
theorem scope_of_parse
    (h : Cookie.parse rules header requestHost requestPath requestIsSecure now = some cookie) :
    cookie.hostOnly = true ∧ cookie.domain = requestHost ∧
        (∀ d, domainAttribute header = some d → d = requestHost) ∨
      cookie.hostOnly = false ∧ domainAttribute header = some cookie.domain ∧
        cookie.domain ≠ [] ∧ domainMatches requestHost cookie.domain ∧
        isPublicSuffix rules cookie.domain = false := by
  obtain ⟨raw, hp⟩ := parsed_of_parse h
  rw [hp.domainAttribute_eq]
  have hscope := hp.scope
  cases hattr : (attributesOf raw).domain with
  | none =>
    simp only [hattr, resolveDomain, Option.some.injEq, Prod.mk.injEq] at hscope
    exact Or.inl ⟨hscope.2.symm, hscope.1.symm, by simp⟩
  | some d =>
    simp only [hattr, resolveDomain] at hscope
    split at hscope
    · split at hscope
      · rename_i hd
        simp only [Option.some.injEq, Prod.mk.injEq] at hscope
        exact Or.inl ⟨hscope.2.symm, hscope.1.symm, by simp [hd]⟩
      · cases hscope
    · split at hscope
      · cases hscope
      · rename_i hok
        simp only [Bool.or_eq_true, Bool.not_eq_true', not_or, Bool.not_eq_true,
          Bool.not_eq_false] at hok
        simp only [Option.some.injEq, Prod.mk.injEq] at hscope
        obtain ⟨rfl, hhost⟩ := hscope
        refine Or.inr ⟨hhost.symm, rfl, ?_, hok.2, hok.1⟩
        intro hnil
        rw [hnil] at hattr
        exact domain_attributesOf_ne_nil raw hattr

/-- **A parsed cookie keeps the promise of its name.** -/
theorem keepsNamePrefixPromise_of_parse
    (h : Cookie.parse rules header requestHost requestPath requestIsSecure now = some cookie) :
    keepsNamePrefixPromise cookie.name cookie.secure cookie.hostOnly cookie.path := by
  obtain ⟨raw, hp⟩ := parsed_of_parse h
  have hrefused := hp.promise
  by_cases hcarries : carriesANamePrefix cookie.name
  · simp only [prefixRefused, hcarries, Bool.true_and, Bool.or_eq_false_iff,
      Bool.not_eq_false'] at hrefused
    rw [hp.secure]
    cases hattr : (attributesOf raw).domain with
    | none =>
      have hscope := hp.scope
      simp only [hattr, resolveDomain, Option.some.injEq, Prod.mk.injEq] at hscope
      rw [← hscope.2]
      simpa [hattr] using hrefused.2
    | some d =>
      -- With a `Domain` attribute only a `__Secure-` name is left, which asks for no scope.
      have hpromise := hrefused.2
      simp only [hattr, Option.isNone_some] at hpromise
      unfold keepsNamePrefixPromise at hpromise ⊢
      split at hpromise <;> simp_all
  · unfold carriesANamePrefix at hcarries
    simp only [Bool.or_eq_true, not_or, Bool.not_eq_true] at hcarries
    simp [keepsNamePrefixPromise, hcarries.1, hcarries.2]

end Parsed

end Chromulate.Cookies
