import Chromulate.Http.Header

/-!
# Messages

Methods, versions, statuses and the field names the cache and the engine look at, from the `http`
crate, and the frames a body yields.
-/

namespace Chromulate

inductive Method where
  | options
  | get
  | post
  | put
  | delete
  | head
  | trace
  | connect
  | patch
  | other (token : Str)
  deriving DecidableEq

/-- `http::StatusCode`, as a number. -/
abbrev StatusCode := Nat

inductive Version where
  | http09
  | http10
  | http11
  | http2
  | http3
  deriving DecidableEq

def Method.asStr : Method → Str
  | .options => "OPTIONS".toList
  | .get => "GET".toList
  | .post => "POST".toList
  | .put => "PUT".toList
  | .delete => "DELETE".toList
  | .head => "HEAD".toList
  | .trace => "TRACE".toList
  | .connect => "CONNECT".toList
  | .patch => "PATCH".toList
  | .other token => token

/-- What one poll of a body brings: a frame, a failure or the end. -/
inductive Frame where
  | data (chunk : Bytes)
  | trailers
  | error
  | done
  deriving DecidableEq

namespace HeaderName

def acceptEncoding : HeaderName := ⟨"accept-encoding".toList, by decide⟩
def age : HeaderName := ⟨"age".toList, by decide⟩
def authorization : HeaderName := ⟨"authorization".toList, by decide⟩
def cacheControl : HeaderName := ⟨"cache-control".toList, by decide⟩
def connection : HeaderName := ⟨"connection".toList, by decide⟩
def contentEncoding : HeaderName := ⟨"content-encoding".toList, by decide⟩
def contentLanguage : HeaderName := ⟨"content-language".toList, by decide⟩
def contentLength : HeaderName := ⟨"content-length".toList, by decide⟩
def contentLocation : HeaderName := ⟨"content-location".toList, by decide⟩
def contentType : HeaderName := ⟨"content-type".toList, by decide⟩
def cookie : HeaderName := ⟨"cookie".toList, by decide⟩
def date : HeaderName := ⟨"date".toList, by decide⟩
def etag : HeaderName := ⟨"etag".toList, by decide⟩
def expires : HeaderName := ⟨"expires".toList, by decide⟩
def host : HeaderName := ⟨"host".toList, by decide⟩
def ifMatch : HeaderName := ⟨"if-match".toList, by decide⟩
def ifModifiedSince : HeaderName := ⟨"if-modified-since".toList, by decide⟩
def ifNoneMatch : HeaderName := ⟨"if-none-match".toList, by decide⟩
def ifRange : HeaderName := ⟨"if-range".toList, by decide⟩
def ifUnmodifiedSince : HeaderName := ⟨"if-unmodified-since".toList, by decide⟩
def lastModified : HeaderName := ⟨"last-modified".toList, by decide⟩
def location : HeaderName := ⟨"location".toList, by decide⟩
def pragma : HeaderName := ⟨"pragma".toList, by decide⟩
def proxyAuthorization : HeaderName := ⟨"proxy-authorization".toList, by decide⟩
def range : HeaderName := ⟨"range".toList, by decide⟩
def retryAfter : HeaderName := ⟨"retry-after".toList, by decide⟩
def setCookie : HeaderName := ⟨"set-cookie".toList, by decide⟩
def strictTransportSecurity : HeaderName := ⟨"strict-transport-security".toList, by decide⟩
def transferEncoding : HeaderName := ⟨"transfer-encoding".toList, by decide⟩
def vary : HeaderName := ⟨"vary".toList, by decide⟩

end HeaderName

end Chromulate
