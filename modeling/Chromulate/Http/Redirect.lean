import Chromulate.Core.Request

/-!
# What a redirect means

`chromulate-http/src/redirect.rs`: a status, a `Location` and the request that led there in, a
decision out.
-/

namespace Chromulate.Http.Redirect

def credentialHeaders : List HeaderName := [.authorization, .cookie, .proxyAuthorization]

/-- `Hop`: the next request of a chain. -/
structure Hop where
  url : Url
  method : Method
  dropBody : Bool
  crossOrigin : Bool
  deriving DecidableEq

inductive Decision where
  | stop
  | follow (hop : Hop)
  deriving DecidableEq

def isRedirect (status : StatusCode) : Bool := [301, 302, 303, 307, 308].contains status

def methodAfter (status : StatusCode) (method : Method) : Method :=
  if (status = 301 ∨ status = 302) ∧ method = .post then .get
  else if status = 303 ∧ method ≠ .get ∧ method ≠ .head then .get
  else method

/-- `crosses_origin`: an origin that cannot be computed counts as a different one. -/
def crossesOrigin (current next : Url) : Bool :=
  match Origin.ofUrl current, Origin.ofUrl next with
  | some current, some next => current ≠ next
  | _, _ => true

def stripCredentials (headers : HeaderMap) : HeaderMap :=
  credentialHeaders.foldl HeaderMap.remove headers

def resolveLocation (crate : UrlCrate) (current : Url) (location : HeaderValue) :
    Except Error Url :=
  match location.toStr with
  | none => .error (.redirect "the Location header is not valid text".toList)
  | some raw =>
    match crate.join current (Text.trim raw) with
    | .error error =>
      .error (.redirect ("the Location header is not a usable URL: ".toList ++ error))
    | .ok url => .ok url

/-- `decide`: what to do with a response after `hops` redirects. -/
def decide (crate : UrlCrate) (status : StatusCode) (headers : HeaderMap) (current : Url)
    (method : Method) (limit : Option Nat) (hops : Nat) : Except Error Decision :=
  if !isRedirect status then .ok .stop
  else
    match limit, headers.get .location with
    | none, _ => .ok .stop
    | some _, none => .ok .stop
    | some limit, some location =>
      if limit ≤ hops then .error (.tooManyRedirects limit)
      else
        match resolveLocation crate current location with
        | .error error => .error error
        | .ok url =>
          if url.scheme ≠ "http".toList ∧ url.scheme ≠ "https".toList then
            .error (.redirect ("refusing to follow a redirect to the `".toList ++ url.scheme ++
              "` scheme".toList))
          else
            let nextMethod := methodAfter status method
            .ok (.follow
              { url := url
                method := nextMethod
                dropBody := nextMethod ≠ method
                crossOrigin := crossesOrigin current url })

/-- What a redirect that is followed tells. -/
structure Followed (status : StatusCode) (current : Url) (method : Method) (limit : Option Nat)
    (hops : Nat) (hop : Hop) : Prop where
  redirects : isRedirect status
  within : ∃ most, limit = some most ∧ hops < most
  scheme : hop.url.scheme = "http".toList ∨ hop.url.scheme = "https".toList
  method_eq : hop.method = methodAfter status method
  dropBody_iff : hop.dropBody ↔ methodAfter status method ≠ method
  crossOrigin_eq : hop.crossOrigin = crossesOrigin current hop.url

variable {current : Url}

theorem join_of_resolveLocation {crate : UrlCrate} {location : HeaderValue} {next : Url}
    (h : resolveLocation crate current location = .ok next) :
    ∃ text, location.toStr = some text ∧ crate.join current (Text.trim text) = .ok next := by
  unfold resolveLocation at h
  split at h
  · cases h
  · rename_i text htext
    split at h
    · cases h
    · rename_i hjoin
      cases h
      exact ⟨text, htext, hjoin⟩

/-- Everything there is to a redirect that is followed, with the location it names. -/
theorem followed_of_decide {crate : UrlCrate} {status : StatusCode} {headers : HeaderMap}
    {method : Method} {limit : Option Nat} {hops : Nat} {hop : Hop}
    (h : decide crate status headers current method limit hops = .ok (.follow hop)) :
    Followed status current method limit hops hop ∧
      ∃ text, (headers.get .location).bind HeaderValue.toStr = some text ∧
        crate.join current (Text.trim text) = .ok hop.url := by
  unfold decide at h
  split at h
  · cases h
  · rename_i hredirect
    split at h
    · cases h
    · cases h
    · rename_i most location hlocation
      split at h
      · cases h
      · rename_i hless
        split at h
        · cases h
        · rename_i url hurl
          split at h
          · cases h
          · rename_i hscheme
            cases h
            constructor
            · exact
                { redirects := by simpa using hredirect
                  within := ⟨most, rfl, Nat.lt_of_not_le hless⟩
                  scheme := by
                    by_contra hnot
                    exact hscheme ⟨fun heq => hnot (Or.inl heq), fun heq => hnot (Or.inr heq)⟩
                  method_eq := rfl
                  dropBody_iff := by simp
                  crossOrigin_eq := rfl }
            · rw [hlocation]
              exact join_of_resolveLocation hurl

/-- A hop that does not cross has the origin it came from. -/
theorem crossesOrigin_eq_false {next : Url} :
    crossesOrigin current next = false ↔
      ∃ origin, Origin.ofUrl current = some origin ∧ Origin.ofUrl next = some origin := by
  unfold crossesOrigin
  cases Origin.ofUrl current with
  | none => simp
  | some a =>
    cases Origin.ofUrl next with
    | none => simp
    | some b =>
      simp only [ne_eq, decide_eq_false_iff_not, not_not, Option.some.injEq]
      constructor
      · rintro rfl
        exact ⟨a, rfl, rfl⟩
      · rintro ⟨origin, rfl, rfl⟩
        rfl

theorem getAll_stripCredentials (headers : HeaderMap) (name : HeaderName) :
    (stripCredentials headers).getAll name =
      if name ∈ credentialHeaders then [] else headers.getAll name :=
  HeaderMap.getAll_foldl_remove credentialHeaders headers name

end Chromulate.Http.Redirect
