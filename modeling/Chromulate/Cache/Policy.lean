import Chromulate.Cache.Entry

/-!
# May it be stored, and is it still fresh

`chromulate-cache/src/policy.rs`. The storage rules are a chain of refusals; `Kept` is what a
response that passes all of them has in common, and **`kept_of_storable`** reads it off the
chain once.
-/

namespace Chromulate.Cache

open HeaderMap

structure CacheConfig where
  maxBodyBytes : Nat
  storePrivate : Bool
  heuristicCap : Duration
  deriving DecidableEq

def CacheConfig.default : CacheConfig where
  maxBodyBytes := 8 * 1024 * 1024
  storePrivate := false
  heuristicCap := Duration.fromSecs (24 * 60 * 60)

/-- `NotStorable`: the rule that refused. -/
inductive NotStorable where
  | method
  | requestNoStore
  | responseNoStore
  | status
  | setCookie
  | varyStar
  | varyUnselectable
  | isPrivate
  | authorization
  | noFreshnessAndNoValidator
  deriving DecidableEq

def isCacheableStatus (status : StatusCode) : Bool :=
  [200, 203, 204, 300, 301, 302, 307, 308, 404, 405, 410, 414, 501].contains status

/-- `is_heuristically_cacheable`: not `302` and `307`. -/
def isHeuristicallyCacheable (status : StatusCode) : Bool :=
  [200, 203, 204, 300, 301, 308, 404, 405, 410, 414, 501].contains status

/-- `UNSELECTABLE`: the request fields written after the cache has seen the request. -/
def unselectable : List Str :=
  ["cookie", "accept", "referer", "origin", "priority", "upgrade-insecure-requests",
    "sec-fetch-site", "sec-fetch-mode", "sec-fetch-user", "sec-fetch-dest", "sec-ch-ua-arch",
    "sec-ch-ua-bitness", "sec-ch-ua-model", "sec-ch-ua-platform-version",
    "sec-ch-ua-full-version-list"].map String.toList

def hasValidator (headers : HeaderMap) : Bool :=
  containsKey headers .etag || containsKey headers .lastModified

/-- Whether the response says it may be kept although the request was authorised. -/
def CacheControl.isShareable (cc : CacheControl) : Bool :=
  cc.isPublic || cc.mustRevalidate || cc.sMaxage.isSome

/-- Whether an entry made of the response could ever be of use. -/
def isUsable (status : StatusCode) (headers : HeaderMap) (cc : CacheControl) : Bool :=
  cc.maxAge.isSome || containsKey headers .expires || hasValidator headers ||
    (isHeuristicallyCacheable status && containsKey headers .lastModified)

/-- `storable`: the `Vary` names to select the response by, or the rule that refuses it. -/
def storable (config : CacheConfig) (method : Method) (requestHeaders : HeaderMap)
    (requestCc : CacheControl) (status : StatusCode) (responseHeaders : HeaderMap)
    (responseCc : CacheControl) : Except NotStorable (List HeaderName) :=
  if method ≠ .get then .error .method
  else if requestCc.noStore then .error .requestNoStore
  else if responseCc.noStore then .error .responseNoStore
  else if !isCacheableStatus status then .error .status
  else if containsKey responseHeaders .setCookie then .error .setCookie
  else
    match varyNames responseHeaders with
    | none => .error .varyStar
    | some names =>
      if names.any fun name => unselectable.contains name.text then .error .varyUnselectable
      else if responseCc.isPrivate && !config.storePrivate then .error .isPrivate
      else if containsKey requestHeaders .authorization && !config.storePrivate &&
          !responseCc.isShareable then .error .authorization
      else if !isUsable status responseHeaders responseCc then
        .error .noFreshnessAndNoValidator
      else .ok names

theorem refuse_eq_ok {ε α : Type} {c : Prop} [Decidable c] {reason : ε} {rest : Except ε α}
    {v : α} : (if c then .error reason else rest) = Except.ok v ↔ ¬ c ∧ rest = .ok v := by
  by_cases h : c <;> simp [h]

/-- What a response the storage rules let pass, with the request it answers, looks like. -/
structure Kept (config : CacheConfig) (requestHeaders : HeaderMap) (status : StatusCode)
    (headers : HeaderMap) (cc : CacheControl) (names : List HeaderName) : Prop where
  noStore : cc.noStore = false
  status_cacheable : isCacheableStatus status
  setCookie : getAll headers .setCookie = []
  vary : varyNames headers = some names
  selectable : ∀ name ∈ names, name.text ∉ unselectable
  shared : config.storePrivate = false → cc.isPrivate = false
  authorized : config.storePrivate = false → containsKey requestHeaders .authorization →
    cc.isShareable

/-- **What passes the rules is kept on their terms.** -/
theorem kept_of_storable {config : CacheConfig} {method : Method} {requestHeaders : HeaderMap}
    {requestCc : CacheControl} {status : StatusCode} {headers : HeaderMap} {cc : CacheControl}
    {names : List HeaderName}
    (h : storable config method requestHeaders requestCc status headers cc = .ok names) :
    Kept config requestHeaders status headers cc names := by
  simp only [storable, refuse_eq_ok] at h
  obtain ⟨-, -, hnoStore, hstatus, hcookie, h⟩ := h
  cases hvary : varyNames headers with
  | none =>
    rw [hvary] at h
    cases h
  | some found =>
    simp only [hvary, refuse_eq_ok] at h
    obtain ⟨hunsel, hprivate, hauth, -, h⟩ := h
    cases h
    constructor
    · simpa using hnoStore
    · simpa using hstatus
    · simpa [containsKey] using hcookie
    · exact hvary
    · intro name hname hmem
      exact hunsel (List.any_eq_true.mpr ⟨name, hname, by simpa using hmem⟩)
    · intro hpriv
      simpa [hpriv] using hprivate
    · intro hpriv hreq
      simpa [hpriv, hreq] using hauth

/-! ## Freshness -/

def currentAge (entry : CacheEntry) (now : SystemTime) : Duration :=
  let received := entry.receivedAt
  let apparentAge := (SystemTime.durationSince received entry.effectiveDate).getD 0
  let responseDelay := (SystemTime.durationSince received entry.requestedAt).getD 0
  let correctedAge := Duration.saturatingAdd (entry.ageField.getD 0) responseDelay
  let initialAge := max apparentAge correctedAge
  let residentTime := (SystemTime.durationSince now received).getD 0
  Duration.saturatingAdd initialAge residentTime

/-- `freshness_lifetime`: an explicit one, `Expires`, or a tenth of the time unmodified. -/
def freshnessLifetime (entry : CacheEntry) (cc : CacheControl) (config : CacheConfig) :
    Option Duration :=
  match cc.explicitLifetime, entry.expiresField with
  | some explicit, _ => some explicit
  | none, some expires => some ((SystemTime.durationSince expires entry.effectiveDate).getD 0)
  | none, none =>
    if !isHeuristicallyCacheable entry.status then none
    else do
      let lastModified ← entry.lastModified
      let since ← SystemTime.durationSince entry.effectiveDate lastModified
      some (min (since / 10) config.heuristicCap)

/-- `is_fresh`: never, under `no-cache`. -/
def isFresh (entry : CacheEntry) (cc : CacheControl) (config : CacheConfig) (now : SystemTime) :
    Bool :=
  if cc.noCache then false
  else
    match freshnessLifetime entry cc config with
    | some lifetime => currentAge entry now < lifetime
    | none => false

def requestForcesRevalidation (cc : CacheControl) : Bool := cc.noCache || cc.maxAge = some 0

theorem noCache_of_isFresh {entry : CacheEntry} {cc : CacheControl} {config : CacheConfig}
    {now : SystemTime} (h : isFresh entry cc config now) : cc.noCache = false := by
  unfold isFresh at h
  split_ifs at h with hno
  simpa using hno

end Chromulate.Cache
