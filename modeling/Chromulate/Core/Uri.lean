import Chromulate.Lib.Text

/-!
# Targets and origins

`chromulate-core/src/uri.rs`, over the components of a parsed `url::Url`, and the cookie
context of `chromulate-core/src/request.rs`.
-/

namespace Chromulate

/-- The tuple origin `url::Url::origin` computes. -/
structure TupleOrigin where
  scheme : Str
  host : Str
  port : Nat
  deriving DecidableEq

/-- A parsed URL: what its accessors return. -/
structure Url where
  scheme : Str
  /-- `host_str`: `none` for a URL such as `data:`. -/
  host : Option Str
  /-- `port`: `none` when the URL leaves it to the scheme. -/
  port : Option Nat
  path : Str
  /-- The text up to the end of the query, `url[..Position::AfterQuery]`. -/
  upToQuery : Str
  /-- `origin`: `none` for an opaque origin, which equals no other. -/
  origin : Option TupleOrigin
  deriving DecidableEq

/-- A URL of a scheme, a host and a path and nothing else. -/
def Url.plain (scheme host path : String) : Url where
  scheme := scheme.toList
  host := some host.toList
  port := none
  path := path.toList
  upToQuery := scheme.toList ++ "://".toList ++ host.toList ++ path.toList
  origin := none

/-- The default ports the `url` crate knows. -/
def defaultPort (scheme : Str) : Option Nat :=
  if scheme = "http".toList ∨ scheme = "ws".toList then some 80
  else if scheme = "https".toList ∨ scheme = "wss".toList then some 443
  else if scheme = "ftp".toList then some 21
  else none

def Url.portOrKnownDefault (url : Url) : Option Nat := url.port.or (defaultPort url.scheme)

/-- `Origin`: scheme, host and port, the first two in lower case. -/
structure Origin where
  scheme : Str
  host : Str
  port : Nat
  deriving DecidableEq

/-- `Origin::of`, which fails without a host or a port. -/
def Origin.ofUrl (url : Url) : Option Origin := do
  let host ← url.host
  let port ← url.portOrKnownDefault
  some
    { scheme := Text.toAsciiLowercase url.scheme
      host := Text.toAsciiLowercase host
      port := port }

theorem Origin.host_of_ofUrl {url : Url} {origin : Origin} {text : Str}
    (h : Origin.ofUrl url = some origin) (hhost : url.host = some text) :
    origin.host = Text.toAsciiLowercase text := by
  rw [Origin.ofUrl, hhost] at h
  obtain ⟨found, hfound, hrest⟩ := Option.bind_eq_some_iff.mp h
  obtain ⟨port, -, horigin⟩ := Option.bind_eq_some_iff.mp hrest
  cases hfound
  cases horigin
  rfl

def Origin.isSecure (origin : Origin) : Bool :=
  origin.scheme = "https".toList ∨ origin.scheme = "wss".toList

/-- `CookieContext`: who asked, and whether for a top-level navigation. -/
structure CookieContext where
  initiator : Option Origin
  isTopLevelNavigation : Bool

def CookieContext.conservativeDefault : CookieContext where
  initiator := none
  isTopLevelNavigation := true

end Chromulate
