import Chromulate.Cache.HttpCache
import Chromulate.Header.Engine
import Chromulate.Http.Hsts
import Chromulate.Http.Pool
import Chromulate.Http.Redirect
import Chromulate.Lib.Loop

/-!
# The engine

`Engine::run` in `chromulate-http/src/engine.rs`: one logical request, followed through its
redirects. Each turn of the loop asks the cache, sends the request unless the cache answers, and
decides what the answer means. A turn finds a world it did not make: the cache and the session of
its route as other requests left them, a connection or none, an answer or none. What the loop
itself carries from turn to turn is the request, the URL, the chain and the HSTS store. The clock
does not run backwards; a deadline that passes is one of the errors a connection can raise.

`Sends` and `Follows` say what a turn does: what goes on the wire, and what the next turn starts
from.
-/

namespace Chromulate.Http

open Redirect Header

/-- `Request`, with the extensions the engine reads. -/
structure Request where
  method : Method
  uri : Uri
  version : Version
  headers : HeaderMap
  body : Body
  options : RequestOptions
  /-- Whether `UserActivatedNavigation` is set. -/
  userActivated : Bool

/-! ## Sessions -/

/-- What the validator store holds for a URL. -/
structure Validators where
  etag : Option HeaderValue
  lastModified : Option HeaderValue

/-- `Session`: what the route's stores answer. Without a cookie store there is no cookie. -/
structure Session where
  cookiesFor : Url → CookieContext → Option HeaderValue
  granted : Origin → List HighEntropyHint
  validators : Url → Option Validators

def isAlreadyConditional (headers : HeaderMap) : Bool :=
  [HeaderName.ifNoneMatch, .ifModifiedSince, .ifMatch, .ifUnmodifiedSince, .ifRange].any
    headers.containsKey

def Session.condition (session : Session) (url : Url) (request : Request) : HeaderMap :=
  if (request.method ≠ .get ∧ request.method ≠ .head) ∨ isAlreadyConditional request.headers then
    request.headers
  else
    match session.validators url with
    | none => request.headers
    | some validators =>
      let headers := match validators.etag with
        | some etag => request.headers.insert .ifNoneMatch etag
        | none => request.headers
      match validators.lastModified with
      | some lastModified => headers.insert .ifModifiedSince lastModified
      | none => headers

/-! ## The engine and its world -/

/-- `Engine`, by what a request's way through it depends on. -/
structure Engine where
  crate : UrlCrate
  /-- `preload_covers`. -/
  preload : Str → Bool
  headers : HeaderEngine
  cacheEnv : Cache.Env
  /-- The configured redirect policy. -/
  redirect : RedirectPolicy

/-- The world a turn of the loop finds. -/
structure Turn where
  /-- The cache, if the engine has one. -/
  cache : Option Cache.HttpCache
  session : Session
  /-- How long it takes until the request goes out. -/
  wait : Duration
  /-- The connection for the hop, or why there is none. -/
  connection : Except Error Protocol
  /-- What the origin answers, or why it does not. -/
  answer : Except Error Cache.Response
  /-- How long the answer takes. -/
  elapsed : Duration

/-- `Hop` of `ResponseInfo`: a URL that answered with a redirect, and its status. -/
structure AnsweredHop where
  url : Url
  status : StatusCode
  deriving DecidableEq

/-- The loop's variables, with the engine's HSTS store and the clock. -/
structure State where
  request : Request
  url : Url
  chain : List AnsweredHop
  hsts : HstsStore
  clock : SystemTime

/-- A request on the wire, and the store and the clock when it went out. -/
structure Sent where
  url : Url
  method : Method
  uri : Uri
  version : Version
  headers : HeaderMap
  body : Body
  hsts : HstsStore
  instant : SystemTime

/-- What a turn leaves on record: the URL it was about, what it sent, and the status it went by. -/
structure Visit where
  url : Url
  sent : Option Sent
  status : Option StatusCode

/-- The response the caller is given, with the `ResponseInfo` of its extensions. -/
structure Finished where
  status : StatusCode
  headers : HeaderMap
  url : Url
  hops : List AnsweredHop
  deriving DecidableEq

namespace Engine

variable (engine : Engine)

/-- The jar's answer, asked for only when the caller has set no cookie. -/
def fromJar (session : Session) (request : Request) (url : Url) : Option HeaderValue :=
  if request.headers.containsKey .cookie then none
  else session.cookiesFor url request.options.cookieContext

/-- `apply_headers`: the request with its headers rebuilt, and the wire order. A cookie from the
jar is on the wire only. -/
def applyHeaders (session : Session) (request : Request) (url : Url) :
    Except Error (Request × HeaderMap) :=
  let jar := fromJar session request url
  let headers := match jar with
    | some value => request.headers.insert .cookie value
    | none => request.headers
  match engine.headers.apply engine.crate
      ⟨request.method, request.version, request.userActivated⟩ headers url request.options
      session.granted with
  | .error error => .error error
  | .ok (headers, ordered) =>
    .ok ({ request with headers := if jar.isSome then headers.remove .cookie else headers },
      ordered)

/-- The target `outgoing_request` puts on the wire. -/
def outgoingUri (protocol : Protocol) (uri : Uri) : Uri :=
  match protocol with
  | .http11 => ⟨none, none, some (uri.pathAndQuery.getD "/".toList)⟩
  | .http2 => uri

def outgoingRequest (state : State) (protocol : Protocol) (body : Body) (ordered : HeaderMap) :
    Sent where
  url := state.url
  method := state.request.method
  uri := outgoingUri protocol state.request.uri
  version := protocol.version
  headers := ordered
  body := body
  hsts := state.hsts
  instant := state.clock

/-- `record_response`, as far as the engine itself remembers: the HSTS store. -/
def recordResponse (url : Url) (headers : HeaderMap) (hsts : HstsStore) (now : SystemTime) :
    HstsStore :=
  match (headers.get .strictTransportSecurity).bind HeaderValue.toStr, url.host with
  | some value, some host => hsts.record host value (url.scheme = "https".toList) now
  | _, _ => hsts

/-- `Engine::hop`: the state after it, what it sent, and the response. -/
def hop (turn : Turn) (state : State) (body : Body) :
    State × Option Sent × Except Error Cache.Response :=
  let state := { state with clock := state.clock + turn.wait }
  match Origin.of engine.crate state.url, turn.connection with
  | .error error, _ => (state, none, .error error)
  | .ok _, .error error => (state, none, .error error)
  | .ok _, .ok protocol =>
    let request := { state.request with version := protocol.version }
    let request := { request with headers := turn.session.condition state.url request }
    match engine.applyHeaders turn.session request state.url with
    | .error error => (state, none, .error error)
    | .ok (request, ordered) =>
      let state := { state with request := request }
      let sent := outgoingRequest state protocol body ordered
      match turn.answer with
      | .error error => (state, some sent, .error error)
      | .ok response =>
        let now := state.clock + turn.elapsed
        ({ state with
          hsts := recordResponse state.url response.headers state.hsts now
          clock := now }, some sent, .ok response)

/-- The headers `rebuild` removes with a body. -/
def bodyHeaders : List HeaderName := [.contentLength, .contentType, .transferEncoding]

def rebuild (previous : Request) (hop : Hop) (body : Body) : Except Error Request :=
  match engine.crate.parseUri (engine.crate.asStr hop.url) with
  | .error error =>
    .error (.redirect ("redirect target is not a valid URI: ".toList ++ error))
  | .ok uri =>
    let headers := if hop.crossOrigin then stripCredentials previous.headers
      else previous.headers
    let headers := if hop.dropBody then bodyHeaders.foldl HeaderMap.remove headers else headers
    .ok { previous with
      method := hop.method
      uri := uri
      headers := headers.remove .host
      body := body }

def streamingRedirectError (hop : Hop) : Error :=
  .redirect ("cannot follow a redirect that re-sends the body as ".toList ++ hop.method.asStr ++
    (": the body is a stream, it has already been sent once, and replaying it is not possible. " ++
      "Buffer the body, or set `RedirectPolicy::None` and follow the hop yourself.").toList)

/-- The second half of a turn: what the response means. -/
def conclude (limit : Option Nat) (state : State) (spare : Option Body) (status : StatusCode)
    (headers : HeaderMap) : State ⊕ Except Error Finished :=
  match decide engine.crate status headers state.url state.request.method limit
      state.chain.length with
  | .error error => .inr (.error error)
  | .ok .stop => .inr (.ok ⟨status, headers, state.url, state.chain⟩)
  | .ok (.follow hop) =>
    match if hop.dropBody then some .empty else spare with
    | none => .inr (.error (streamingRedirectError hop))
    | some nextBody =>
      match engine.rebuild state.request hop nextBody with
      | .error error => .inr (.error error)
      | .ok request =>
        .inl { state with
          request := request
          url := hop.url
          chain := state.chain ++ [⟨state.url, status⟩] }

/-- `cache_before`: the request with the validators of a stale entry, the cache's state for the
answer, and the stored response when that is the answer. -/
def cacheBefore (cache : Option Cache.HttpCache) (state : State) :
    Request × Option Cache.Pending × Option Cache.Reply :=
  match cache with
  | none => (state.request, none, none)
  | some cache =>
    let before := cache.before engine.cacheEnv ⟨state.request.method, state.request.headers⟩
      state.url state.clock
    ({ state.request with headers := before.request.headers }, some before.pending,
      before.served)

/-- `cache_after`: the response the loop goes by. -/
def cacheAfter (cache : Option Cache.HttpCache) (pending : Option Cache.Pending) (url : Url)
    (response : Cache.Response) (now : SystemTime) : StatusCode × HeaderMap :=
  match cache, pending with
  | some cache, some pending =>
    let reply := (Cache.HttpCache.after engine.cacheEnv cache.config pending url response now).2
    (reply.status, reply.headers)
  | _, _ => (response.status, response.headers)

/-- One turn of the loop of `Engine::run`. -/
def turn (limit : Option Nat) (state : State) (turn : Turn) :
    Visit × (State ⊕ Except Error Finished) :=
  let body := state.request.body
  let spare := body.tryClone
  let state := { state with request := { state.request with body := .empty } }
  match engine.cacheBefore turn.cache state with
  | (request, _, some reply) =>
    (⟨state.url, none, some reply.status⟩,
      engine.conclude limit { state with request := request } spare reply.status reply.headers)
  | (request, pending, none) =>
    match engine.hop turn { state with request := request } body with
    | (_, sent, .error error) => (⟨state.url, sent, none⟩, .inr (.error error))
    | (state, sent, .ok response) =>
      let (status, headers) :=
        engine.cacheAfter turn.cache pending state.url response state.clock
      (⟨state.url, sent, some status⟩, engine.conclude limit state spare status headers)

def urlOf (uri : Uri) : Except Error Url :=
  if uri.scheme = none then
    .error (.url ("`".toList ++ engine.crate.displayUri uri ++
      "` is not absolute; a request needs a scheme and a host".toList))
  else
    match engine.crate.parse (engine.crate.displayUri uri) with
    | .error error =>
      .error (.url ("`".toList ++ engine.crate.displayUri uri ++ "` is not a URL: ".toList ++
        error))
    | .ok url => .ok url

def effectivePolicy (options : RequestOptions) : RedirectPolicy :=
  if options.redirect = .default then engine.redirect else options.redirect

/-- How many redirects a request may follow; `none` for not even looking. -/
def limitFor (options : RequestOptions) : Option Nat :=
  match engine.effectivePolicy options with
  | .follow limit => some limit
  | .none => none

/-- The URL a request asks for: that of its `RequestUrl` extension, or else of its target. -/
def startUrl (request : Request) (requestUrl : Option Url) : Except Error Url :=
  match requestUrl with
  | some url => .ok url
  | none => engine.urlOf request.uri

/-- The loop's variables at its start: `apply_hsts` has seen the URL. -/
def start (request : Request) (url : Url) (hsts : HstsStore) (now : SystemTime) : State where
  request := request
  url := hsts.upgrade engine.crate engine.preload url now
  chain := []
  hsts := hsts
  clock := now

/-- `Engine::run` of a request, with the URL its `RequestUrl` extension gives, against a world for
each turn: every turn's record, and the result unless the worlds run out before the loop ends. -/
def run (request : Request) (requestUrl : Option Url) (hsts : HstsStore) (now : SystemTime)
    (turns : List Turn) : List Visit × Option (Except Error Finished) :=
  match engine.startUrl request requestUrl with
  | .error error => ([], some (.error error))
  | .ok url =>
    Loop.run (engine.turn (engine.limitFor request.options))
      (engine.start request url hsts now) turns

end Engine

/-! ## What is carried from hop to hop -/

/-- The names under which only the caller puts values: the profile has none for them, and neither
the cache nor the validator store adds any. -/
def carried (name : HeaderName) : Bool :=
  !supplies name && name ≠ .ifNoneMatch && name ≠ .ifModifiedSince

/-- The names under which the cache and the validator store add values. -/
def validatorNames : List HeaderName := [.ifNoneMatch, .ifModifiedSince]

theorem carried_cookie : carried .cookie := by decide +kernel

variable {name : HeaderName}

theorem carried_iff : carried name ↔ supplies name = false ∧ name ∉ validatorNames := by
  simp [carried, validatorNames, and_assoc]

theorem supplies_of_carried (h : carried name) : supplies name = false :=
  (carried_iff.mp h).1

theorem ne_host_of_carried (h : carried name) : name ≠ .host := by
  rintro rfl
  exact absurd (supplies_of_carried h) (by decide)

/-- A later form of a request: what the caller asked for is still in it. -/
structure Request.Keeps (request later : Request) : Prop where
  method : later.method = request.method
  options : later.options = request.options
  headers : ∀ name, carried name → later.headers.getAll name = request.headers.getAll name

theorem Request.Keeps.trans {a b c : Request} (hab : a.Keeps b) (hbc : b.Keeps c) : a.Keeps c where
  method := hbc.method.trans hab.method
  options := hbc.options.trans hab.options
  headers name h := (hbc.headers name h).trans (hab.headers name h)

/-- A validator, if there is one, goes under one of two names. -/
theorem getAll_insert_validator {headers : HeaderMap} {validator : HeaderName}
    (value : Option HeaderValue) (hname : name ∉ validatorNames) (h : validator ∈ validatorNames) :
    (match value with
      | some value => headers.insert validator value
      | none => headers).getAll name = headers.getAll name := by
  cases value with
  | none => rfl
  | some value =>
    have hne : name ≠ validator := fun heq => hname (heq ▸ h)
    exact (HeaderMap.getAll_insert headers validator name value).trans (if_neg hne)

theorem getAll_condition (session : Session) (url : Url) (request : Request)
    (h : name ∉ validatorNames) :
    (session.condition url request).getAll name = request.headers.getAll name := by
  unfold Session.condition
  split
  · rfl
  · split
    · rfl
    · exact (getAll_insert_validator _ h (by decide)).trans
        (getAll_insert_validator _ h (by decide))

theorem getAll_conditional (request : Cache.Request) (entry : Cache.CacheEntry)
    (h : name ∉ validatorNames) :
    (Cache.conditional request entry).headers.getAll name = request.headers.getAll name :=
  (getAll_insert_validator _ h (by decide)).trans (getAll_insert_validator _ h (by decide))

theorem getAll_before (env : Cache.Env) (cache : Cache.HttpCache) (request : Cache.Request)
    (url : Url) (now : SystemTime) (h : name ∉ validatorNames) :
    (cache.before env request url now).request.headers.getAll name =
      request.headers.getAll name := by
  unfold Cache.HttpCache.before
  split
  · rfl
  · dsimp only
    split
    · rfl
    · split
      · rfl
      · split
        · rfl
        · exact getAll_conditional request _ h

namespace Engine

variable {engine : Engine}

theorem keeps_cacheBefore (cache : Option Cache.HttpCache) (state : State) :
    state.request.Keeps (engine.cacheBefore cache state).1 := by
  cases cache with
  | none => exact ⟨rfl, rfl, fun _ _ => rfl⟩
  | some cache => exact ⟨rfl, rfl, fun name h => getAll_before _ _ _ _ _ (carried_iff.mp h).2⟩

/-- What `apply_headers` leaves on the request, and what it puts on the wire. -/
structure AppliesHeaders (session : Session) (request : Request) (url : Url)
    (out : Request × HeaderMap) : Prop where
  keeps : request.Keeps out.1
  wire : ∀ name, carried name → name ≠ .cookie →
    out.2.getAll name = request.headers.getAll name
  cookie : out.2.getAll .cookie =
    request.headers.getAll .cookie ++ (fromJar session request url).toList

variable {request : Request} {session : Session}

theorem getAll_cookie_of_fromJar {url : Url} {value : HeaderValue}
    (h : fromJar session request url = some value) : request.headers.getAll .cookie = [] := by
  unfold fromJar at h
  split at h
  · cases h
  · rename_i hnot
    simpa [HeaderMap.containsKey_iff] using hnot

theorem appliesHeaders {url : Url} {out : Request × HeaderMap}
    (h : engine.applyHeaders session request url = .ok out) :
    AppliesHeaders session request url out := by
  unfold applyHeaders at h
  dsimp only at h
  split at h
  · cases h
  · rename_i headers ordered happly
    cases h
    have hof := fun name (hname : carried name) =>
      HeaderEngine.apply_of_not_supplies happly (supplies_of_carried hname)
    cases hjar : fromJar session request url with
    | none =>
      rw [hjar] at hof
      refine ⟨⟨rfl, rfl, fun name hname => (hof name hname).1⟩, fun name hname _ =>
        (hof name hname).2, ?_⟩
      rw [hjar, (hof .cookie carried_cookie).2]
      exact (List.append_nil _).symm
    | some value =>
      rw [hjar] at hof
      have hnone := getAll_cookie_of_fromJar hjar
      refine ⟨⟨rfl, rfl, fun name hname => ?_⟩, fun name hname hne => ?_, ?_⟩
      · -- the jar's cookie is taken off again, and there was no other
        show (headers.remove .cookie).getAll name = _
        rw [HeaderMap.getAll_remove]
        split_ifs with hcookie
        · rw [hcookie, hnone]
        · rw [(hof name hname).1, HeaderMap.getAll_insert, if_neg hcookie]
      · rw [(hof name hname).2, HeaderMap.getAll_insert, if_neg hne]
      · rw [hjar, hnone, (hof .cookie carried_cookie).2, HeaderMap.getAll_insert, if_pos rfl]
        rfl

theorem fromJar_of_keeps (session : Session) (url : Url) {later : Request}
    (h : request.Keeps later) :
    fromJar session later url = fromJar session request url := by
  unfold fromJar HeaderMap.containsKey
  rw [h.options, h.headers .cookie carried_cookie]

/-! ## What a turn does -/

/-- What goes on the wire for a state. -/
structure Sends (session : Session) (state : State) (sent : Sent) : Prop where
  url : sent.url = state.url
  origin : ∃ origin, Origin.ofUrl state.url = some origin
  method : sent.method = state.request.method
  body : sent.body = state.request.body
  hsts : sent.hsts = state.hsts
  instant : state.clock ≤ sent.instant
  headers : ∀ name, carried name → name ≠ .cookie →
    sent.headers.getAll name = state.request.headers.getAll name
  cookie : sent.headers.getAll .cookie =
    state.request.headers.getAll .cookie ++ (fromJar session state.request state.url).toList

/-- What goes on the wire for a later form of the request goes there for the request. -/
theorem Sends.of_keeps {state : State} {later : Request} {sent : Sent}
    (hkeeps : state.request.Keeps later) (hbody : later.body = state.request.body)
    (h : Sends session { state with request := later } sent) : Sends session state sent where
  url := h.url
  origin := h.origin
  method := h.method.trans hkeeps.method
  body := h.body.trans hbody
  hsts := h.hsts
  instant := h.instant
  headers name hname hne := (h.headers name hname hne).trans (hkeeps.headers name hname)
  cookie := by
    have hjar := fromJar_of_keeps session state.url hkeeps
    have hcookie := hkeeps.headers .cookie carried_cookie
    exact h.cookie.trans (congrArg₂ (· ++ Option.toList ·) hcookie hjar)

/-- What a hop leaves of the state, and what it sends. -/
structure HopSpec (turn : Turn) (state : State) (body : Body)
    (out : State × Option Sent × Except Error Cache.Response) : Prop where
  url : out.1.url = state.url
  chain : out.1.chain = state.chain
  keeps : state.request.Keeps out.1.request
  sends : ∀ sent, out.2.1 = some sent →
    Sends turn.session { state with request := { state.request with body := body } } sent

theorem le_add_duration (time : SystemTime) (span : Duration) : time ≤ time + span :=
  Int.le_add_of_nonneg_right (Int.natCast_nonneg span)

theorem hop_spec (engine : Engine) (turn : Turn) (state : State) (body : Body) :
    HopSpec turn state body (engine.hop turn state body) := by
  have hwait := le_add_duration state.clock turn.wait
  have hsame : state.request.Keeps state.request := ⟨rfl, rfl, fun _ _ => rfl⟩
  unfold hop
  dsimp only
  split
  · exact ⟨rfl, rfl, hsame, fun sent h => by cases h⟩
  · exact ⟨rfl, rfl, hsame, fun sent h => by cases h⟩
  · rename_i origin protocol horigin _
    split
    · exact ⟨rfl, rfl, hsame, fun sent h => by cases h⟩
    · rename_i request ordered happlied
      have hspec := appliesHeaders happlied
      -- the version and the validators, and then the headers
      let conditioned : Request := { state.request with
        version := protocol.version
        headers := turn.session.condition state.url
          { state.request with version := protocol.version } }
      have hconditioned : state.request.Keeps conditioned :=
        ⟨rfl, rfl, fun name h => getAll_condition turn.session state.url _ (carried_iff.mp h).2⟩
      have hkeeps : state.request.Keeps request := hconditioned.trans hspec.keeps
      have hlater : Sends turn.session { state with request := { conditioned with body := body } }
          (outgoingRequest
            { state with request := request, clock := state.clock + turn.wait }
            protocol body ordered) :=
        { url := rfl
          origin := ⟨origin, Origin.ofUrl_of_ok horigin⟩
          method := hspec.keeps.method
          body := rfl
          hsts := rfl
          instant := hwait
          headers := hspec.wire
          cookie := hspec.cookie }
      have hbodied : ({ state.request with body := body } : Request).Keeps
          { conditioned with body := body } :=
        ⟨rfl, rfl, hconditioned.headers⟩
      have hsends : Sends turn.session { state with request := { state.request with body := body } }
          (outgoingRequest
            { state with request := request, clock := state.clock + turn.wait }
            protocol body ordered) :=
        Sends.of_keeps hbodied rfl hlater
      split
      · refine ⟨rfl, rfl, hkeeps, ?_⟩
        rintro sent ⟨⟩
        exact hsends
      · refine ⟨rfl, rfl, hkeeps, ?_⟩
        rintro sent ⟨⟩
        exact hsends

/-- The headers a redirect takes off a request. -/
def drops (hop : Hop) (name : HeaderName) : Bool :=
  (hop.crossOrigin && name ∈ credentialHeaders) || (hop.dropBody && name ∈ bodyHeaders)

theorem getAll_rebuild {previous : Request} {hop : Hop} {body : Body}
    (h : engine.rebuild previous hop body = .ok request) {name : HeaderName}
    (hhost : name ≠ .host) :
    request.headers.getAll name = if drops hop name then [] else previous.headers.getAll name := by
  unfold rebuild at h
  split at h
  · cases h
  · cases h
    show HeaderMap.getAll (HeaderMap.remove _ .host) name = _
    rw [HeaderMap.getAll_remove, if_neg hhost, drops]
    cases hop.crossOrigin with
    | false =>
      cases hop.dropBody with
      | false => rfl
      | true => simp [HeaderMap.getAll_foldl_remove]
    | true =>
      cases hop.dropBody with
      | false => simp [getAll_stripCredentials]
      | true =>
        by_cases hbody : name ∈ bodyHeaders
        · simp [HeaderMap.getAll_foldl_remove, hbody]
        · simp [HeaderMap.getAll_foldl_remove, getAll_stripCredentials, hbody]

/-- What the next turn starts from when a redirect is followed. -/
structure Follows (limit : Option Nat) (state : State) (status : StatusCode) (hop : Hop)
    (next : State) : Prop where
  followed : Followed status state.url state.request.method limit state.chain.length hop
  url : next.url = hop.url
  chain : next.chain = state.chain ++ [⟨state.url, status⟩]
  method : next.request.method = hop.method
  options : next.request.options = state.request.options
  body : next.request.body = if hop.dropBody then .empty else state.request.body
  headers : ∀ name, carried name → next.request.headers.getAll name =
    if drops hop name then [] else state.request.headers.getAll name

/-- What an answered hop leaves. -/
theorem eq_of_hop {state after : State} {turn : Turn} {body : Body} {sent : Option Sent}
    {response : Cache.Response} (h : engine.hop turn state body = (after, sent, .ok response)) :
    let now := state.clock + turn.wait + turn.elapsed
    turn.answer = .ok response ∧ sent.isSome ∧ after = { state with
      request := after.request
      hsts := recordResponse state.url response.headers state.hsts now
      clock := now } := by
  unfold hop at h
  dsimp only at h
  split at h
  · cases h
  · cases h
  · split at h
    · cases h
    · split at h
      · cases h
      · rename_i hanswer
        cases h
        exact ⟨hanswer, rfl, rfl⟩

/-- A turn that goes on follows a redirect with the request it has rebuilt. -/
theorem conclude_eq_inl {limit : Option Nat} {state next : State} {spare : Option Body}
    {status : StatusCode} {headers : HeaderMap}
    (h : engine.conclude limit state spare status headers = .inl next) :
    ∃ hop body request,
      decide engine.crate status headers state.url state.request.method limit state.chain.length =
        .ok (.follow hop) ∧
      (if hop.dropBody then some .empty else spare) = some body ∧
      engine.rebuild state.request hop body = .ok request ∧
      next = { state with
        request := request
        url := hop.url
        chain := state.chain ++ [⟨state.url, status⟩] } := by
  unfold conclude at h
  split at h
  · cases h
  · cases h
  · rename_i hop hdecide
    split at h
    · cases h
    · rename_i body hbody
      split at h
      · cases h
      · rename_i request hrebuild
        cases h
        exact ⟨hop, body, request, hdecide, hbody, hrebuild, rfl⟩

/-- The second half of a turn, for a state that keeps what the turn started from. -/
theorem follows_of_conclude {limit : Option Nat} {initial state next : State} {status : StatusCode}
    {headers : HeaderMap} (hurl : state.url = initial.url) (hchain : state.chain = initial.chain)
    (hkeeps : initial.request.Keeps state.request)
    (h : engine.conclude limit state initial.request.body.tryClone status headers = .inl next) :
    ∃ hop, Follows limit initial status hop next := by
  obtain ⟨hop, nextBody, request, hdecide, hbody, hrebuild, rfl⟩ := conclude_eq_inl h
  have hfollowed := (followed_of_decide hdecide).1
  rw [hurl, hchain, hkeeps.method] at hfollowed
  have hrequest : request.method = hop.method ∧ request.options = state.request.options ∧
      request.body = nextBody := by
    unfold rebuild at hrebuild
    split at hrebuild
    · cases hrebuild
    · cases hrebuild
      exact ⟨rfl, rfl, rfl⟩
  refine ⟨hop, hfollowed, rfl, ?_, hrequest.1, hrequest.2.1.trans hkeeps.options, ?_, ?_⟩
  · rw [hurl, hchain]
  · rw [hrequest.2.2]
    split at hbody
    · rename_i hdrop
      rw [if_pos hdrop]
      exact (Option.some.inj hbody).symm
    · rename_i hdrop
      rw [if_neg hdrop]
      exact Body.eq_of_tryClone hbody
  · intro name hname
    rw [getAll_rebuild hrebuild (ne_host_of_carried hname), hkeeps.headers name hname]

/-- **What one turn does**: it is about the state's URL, it sends what the state says, and when it
goes on it has followed a redirect. -/
structure TurnSpec (limit : Option Nat) (state : State) (turn : Turn)
    (out : Visit × (State ⊕ Except Error Finished)) : Prop where
  url : out.1.url = state.url
  sends : ∀ sent, out.1.sent = some sent → Sends turn.session state sent
  follows : ∀ next, out.2 = .inl next → ∃ status hop, out.1.status = some status ∧
    Follows limit state status hop next

theorem turn_spec (engine : Engine) (limit : Option Nat) (state : State) (turn : Turn) :
    TurnSpec limit state turn (engine.turn limit state turn) := by
  -- the state once its body is taken out
  let emptied : State := { state with request := { state.request with body := .empty } }
  have hemptied : state.request.Keeps emptied.request := ⟨rfl, rfl, fun _ _ => rfl⟩
  have hcached : emptied.request.Keeps (engine.cacheBefore turn.cache emptied).1 :=
    keeps_cacheBefore turn.cache emptied
  unfold Engine.turn
  dsimp only
  split
  · rename_i request pending reply hbefore
    rw [hbefore] at hcached
    refine ⟨rfl, (fun sent h => by cases h), fun next h => ?_⟩
    have hkeeps : state.request.Keeps request := hemptied.trans hcached
    have hurl : ({ emptied with request := request } : State).url = state.url := rfl
    obtain ⟨hop, hfollows⟩ := follows_of_conclude hurl rfl hkeeps h
    exact ⟨reply.status, hop, rfl, hfollows⟩
  · rename_i request pending hbefore
    rw [hbefore] at hcached
    have hspec := hop_spec engine turn { emptied with request := request }
      state.request.body
    have hkeeps : state.request.Keeps request := hemptied.trans hcached
    have hsends : ∀ sent, (engine.hop turn { emptied with request := request }
        state.request.body).2.1 = some sent → Sends turn.session state sent := by
      intro sent hsent
      have hbodied : state.request.Keeps { request with body := state.request.body } :=
        ⟨hkeeps.method, hkeeps.options, hkeeps.headers⟩
      exact Sends.of_keeps hbodied rfl (hspec.sends sent hsent)
    split
    · rename_i after sent error hhop
      rw [hhop] at hsends
      exact ⟨rfl, hsends, fun next h => by cases h⟩
    · rename_i after sent response hhop
      rw [hhop] at hsends hspec
      have hurl : after.url = state.url := hspec.url
      have hchain : after.chain = state.chain := hspec.chain
      have hafter : state.request.Keeps after.request := hkeeps.trans hspec.keeps
      refine ⟨hurl, hsends, fun next h => ?_⟩
      obtain ⟨hop, hfollows⟩ := follows_of_conclude hurl hchain hafter h
      exact ⟨_, hop, rfl, hfollows⟩

end Engine

/-! ## A small world

For the concrete runs of the modules that follow: absolute URLs without a port, an engine with a
short header order and no cache, and origins that answer at once. -/

/-- `scheme://host/path`. -/
def readAbsolute (text : Str) : Except Str Url :=
  match Text.splitOnce ':' text with
  | none => .error "relative URL without a base".toList
  | some (scheme, rest) =>
    match Text.stripPrefix "//".toList rest with
    | none => .error "empty host".toList
    | some rest =>
      let (host, path) := (Text.splitOnce '/' rest).getD (rest, [])
      .ok ⟨scheme, some host, none, '/' :: path, text, none⟩

/-- The crates, on such URLs. -/
def absoluteUrls : UrlCrate where
  asStr url := url.upToQuery
  parse := readAbsolute
  join _ text := readAbsolute text
  setHttps url := some { url with
    scheme := "https".toList
    upToQuery := "https".toList ++ url.upToQuery.dropWhile (· ≠ ':') }
  clearPort url := { url with port := none }
  bare url := url.upToQuery
  parseUri text :=
    match readAbsolute text with
    | .ok url => .ok ⟨some url.scheme, url.host, some url.path⟩
    | .error error => .error error
  displayUri uri :=
    uri.scheme.getD [] ++ "://".toList ++ uri.authority.getD [] ++ uri.pathAndQuery.getD []
  setHttps_of_http _ _ _ := rfl
  scheme_setHttps url changed h := by
    cases h
    rfl
  scheme_clearPort _ := rfl

def Engine.small : Engine where
  crate := absoluteUrls
  preload _ := false
  headers.profile :=
    { platform := .macOs
      userAgent := "Mozilla/5.0".toList
      clientHintBrands := []
      accept := "text/html".toList
      acceptLanguage := "en".toList
      acceptEncoding := "gzip".toList
      headerOrder := ⟨["host".toList, "user-agent".toList], none⟩
      observedHeaders := ∅ }
  cacheEnv := ⟨⟨fun _ => 0, ⟨40, 200⟩⟩, fun _ _ => none⟩
  redirect := .default

/-- A turn that finds a connection and an answer, in a session that knows nothing. -/
def Turn.answering (status : StatusCode) (headers : HeaderMap) : Turn where
  cache := none
  session := ⟨fun _ _ => none, fun _ => [], fun _ => none⟩
  wait := 0
  connection := .ok .http11
  answer := .ok ⟨status, .http11, headers, none⟩
  elapsed := 0

/-- A request with some headers and a body. -/
def Request.plain (method : Method) (headers : HeaderMap) (body : Body) : Request where
  method := method
  uri := ⟨none, none, none⟩
  version := .http11
  headers := headers
  body := body
  options := {}
  userActivated := false

end Chromulate.Http
