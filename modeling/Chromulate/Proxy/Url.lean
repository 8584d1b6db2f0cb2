import Chromulate.Core.Host
import Chromulate.Proxy.NoProxy

/-!
# Proxies

`chromulate-proxy/src/url.rs` and `proxy.rs`: a proxy is a URL and a bypass list. The text of a
proxy URL, which the engine uses as the proxy's label, leaves the credentials out.
-/

namespace Chromulate

namespace Proxy

inductive ProxyScheme where
  | http
  | https
  | socks5
  | socks5h
  deriving DecidableEq

def ProxyScheme.asStr : ProxyScheme → Str
  | .http => "http".toList
  | .https => "https".toList
  | .socks5 => "socks5".toList
  | .socks5h => "socks5h".toList

def ProxyScheme.isSocks5 : ProxyScheme → Bool
  | .socks5 | .socks5h => true
  | .http | .https => false

/-- `ProxyUrl`. `parse` takes the host from a URL and its brackets off. -/
structure ProxyUrl where
  scheme : ProxyScheme
  host : Str
  port : Nat
  username : Option Str
  password : Option Str
  plain : host.all (fun c => c ≠ '@' ∧ c ≠ '[' ∧ c ≠ ']') = true
  deriving DecidableEq

namespace ProxyUrl

def hasCredentials (url : ProxyUrl) : Bool := url.username.isSome || url.password.isSome

def hostPort (url : ProxyUrl) : HostPort := ⟨url.host, url.port⟩

/-- What stands for the credentials in the text of a proxy URL. -/
def redacted (url : ProxyUrl) : Str := if url.hasCredentials then "***@".toList else []

/-- `ProxyUrl::to_string`. -/
def display (url : ProxyUrl) : Str :=
  url.scheme.asStr ++ "://".toList ++ url.redacted ++ url.hostPort.display

end ProxyUrl

end Proxy

structure Proxy where
  url : Proxy.ProxyUrl
  noProxy : Proxy.NoProxy
  deriving DecidableEq

namespace Proxy

def new (url : ProxyUrl) : Proxy := ⟨url, .none⟩

def bypasses (proxy : Proxy) (host : Str) : Bool := proxy.noProxy.matchesHost host

/-- What the engine calls a proxy by. -/
def label (proxy : Proxy) : Str := proxy.url.display

end Proxy

end Chromulate
