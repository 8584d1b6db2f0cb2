import Chromulate.Core.Uri
import Chromulate.Http.Message

/-!
# Requests

`chromulate-core`: errors, bodies, the per-request options of `request.rs`, and what `uri.rs` says
of origins and referrers. Parsing and printing a URL is the `url` and `http` crates' business, and
stands here as `UrlCrate`.
-/

namespace Chromulate

/-- `Error`, as far as a request's way through the engine raises it. -/
inductive Error where
  | url (message : Str)
  | redirect (message : Str)
  | tooManyRedirects (limit : Nat)
  | config (message : Str)
  /-- `Error::Config` of `invalid_value_error`: a value of the profile that no header can hold. -/
  | invalidValue (name value : Str)
  /-- Everything the connection raises: resolving, connecting, a deadline, the peer. -/
  | transport (message : Str)
  deriving DecidableEq

/-- `http::Uri`, by its parts. -/
structure Uri where
  scheme : Option Str
  authority : Option Str
  pathAndQuery : Option Str
  deriving DecidableEq

/-- What is done to URLs through the `url` and `http` crates, and what these promise of it. -/
structure UrlCrate where
  /-- `Url::as_str`. -/
  asStr : Url → Str
  /-- `Url::parse`, with the text of its error. -/
  parse : Str → Except Str Url
  /-- `Url::join`, with the text of its error. -/
  join : Url → Str → Except Str Url
  /-- `Url::set_scheme("https")`. -/
  setHttps : Url → Option Url
  /-- `Url::set_port(None)`. -/
  clearPort : Url → Url
  /-- The text of a URL without its fragment, its user name and its password. -/
  bare : Url → Str
  /-- `Uri::from_str`, with the text of its error. -/
  parseUri : Str → Except Str Uri
  /-- `Uri::to_string`. -/
  displayUri : Uri → Str
  /-- Both are special schemes, so a URL with a host may change from one to the other. -/
  setHttps_of_http : ∀ url, url.scheme = "http".toList → url.host.isSome → (setHttps url).isSome
  scheme_setHttps : ∀ url changed, setHttps url = some changed → changed.scheme = "https".toList
  scheme_clearPort : ∀ url, (clearPort url).scheme = url.scheme

/-! ## Origins -/

/-- `Origin::of`, with its errors. -/
def Origin.of (crate : UrlCrate) (url : Url) : Except Error Origin :=
  match url.host, url.portOrKnownDefault with
  | none, _ => .error (.url ("`".toList ++ crate.asStr url ++ "` has no host".toList))
  | some _, none =>
    .error (.url ("scheme `".toList ++ url.scheme ++ "` has no default port".toList))
  | some host, some port =>
    .ok
      { scheme := Text.toAsciiLowercase url.scheme
        host := Text.toAsciiLowercase host
        port := port }

def Origin.asciiSerialization (origin : Origin) : Str :=
  let defaultPort :=
    if origin.scheme = "http".toList ∨ origin.scheme = "ws".toList then 80
    else if origin.scheme = "https".toList ∨ origin.scheme = "wss".toList then 443
    else 0
  if origin.port = defaultPort then origin.scheme ++ "://".toList ++ origin.host
  else
    origin.scheme ++ "://".toList ++ origin.host ++ ":".toList ++ (toString origin.port).toList

/-- `referrer_for`: nothing from a secure origin to another kind, the bare URL within one origin,
and the origin alone across two. -/
def referrerFor (crate : UrlCrate) (source target : Url) : Option Str := do
  let sourceOrigin ← Origin.ofUrl source
  let targetOrigin ← Origin.ofUrl target
  if sourceOrigin.isSecure && !targetOrigin.isSecure then none
  else if sourceOrigin = targetOrigin then some (crate.bare source)
  else some (sourceOrigin.asciiSerialization ++ "/".toList)

theorem Origin.of_eq (crate : UrlCrate) (url : Url) :
    (Origin.of crate url).toOption = Origin.ofUrl url := by
  unfold Origin.of Origin.ofUrl
  cases url.host with
  | none => rfl
  | some host => cases url.portOrKnownDefault <;> rfl

theorem Origin.ofUrl_of_ok {crate : UrlCrate} {url : Url} {origin : Origin}
    (h : Origin.of crate url = .ok origin) : Origin.ofUrl url = some origin := by
  rw [← Origin.of_eq crate, h]
  rfl

/-! ## Options -/

inductive FetchMode where
  | navigate
  | cors
  | noCors
  | sameOrigin
  | websocket
  deriving DecidableEq

def FetchMode.asStr : FetchMode → String
  | .navigate => "navigate"
  | .cors => "cors"
  | .noCors => "no-cors"
  | .sameOrigin => "same-origin"
  | .websocket => "websocket"

inductive FetchDest where
  | document
  | iframe
  | script
  | style
  | image
  | font
  | empty
  deriving DecidableEq

def FetchDest.asStr : FetchDest → String
  | .document => "document"
  | .iframe => "iframe"
  | .script => "script"
  | .style => "style"
  | .image => "image"
  | .font => "font"
  | .empty => "empty"

inductive RedirectPolicy where
  | follow (limit : Nat)
  | none
  deriving DecidableEq

def RedirectPolicy.defaultLimit : Nat := 20

def RedirectPolicy.default : RedirectPolicy := .follow defaultLimit

/-- `RequestOptions`, without the deadlines. -/
structure RequestOptions where
  redirect : RedirectPolicy := .default
  mode : FetchMode := .cors
  dest : FetchDest := .empty
  initiator : Option Origin := none
  referrer : Option Url := none

/-- `RequestOptions::cookie_context`: the mode says something only relative to an initiator. -/
def RequestOptions.cookieContext (options : RequestOptions) : CookieContext :=
  match options.initiator with
  | none => .conservativeDefault
  | some initiator =>
    { initiator := some initiator
      isTopLevelNavigation := options.mode = .navigate }

/-! ## Bodies -/

/-- `Body` of a request. -/
inductive Body where
  | empty
  /-- `none` once the bytes have been taken. -/
  | fixed (bytes : Option Bytes)
  | stream (length : Option Nat)
  deriving DecidableEq

/-- `Body::try_clone`: nothing that can be read only once. -/
def Body.tryClone : Body → Option Body
  | .empty => some .empty
  | .fixed bytes => bytes.map fun bytes => .fixed (some bytes)
  | .stream _ => none

theorem Body.eq_of_tryClone {body copy : Body} (h : body.tryClone = some copy) : copy = body := by
  cases body with
  | empty => exact (Option.some.inj h).symm
  | fixed bytes =>
    obtain ⟨held, rfl, rfl⟩ := Option.map_eq_some_iff.mp h
    rfl
  | stream length => cases h

end Chromulate
