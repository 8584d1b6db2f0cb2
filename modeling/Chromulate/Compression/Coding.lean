import Chromulate.Http.Message

/-!
# Content codings

`chromulate-compression/src/coding.rs`, and from `guard.rs` what is done with a `Content-Encoding`
field: its lines and lists are read as one sequence of at most `maxContentCodings` codings.
-/

namespace Chromulate

/-- The errors a body can report. -/
inductive BodyError where
  /-- What the connection raises. -/
  | body
  /-- `Error::Timeout`, while the body is received. -/
  | timeout
  | decode (encoding : Str)
  | bodyTooLarge (limit : Nat)
  deriving DecidableEq

namespace Compression

inductive ContentCoding where
  | gzip
  | deflate
  | brotli
  | zstd
  | identity
  deriving DecidableEq

namespace ContentCoding

def asStr : ContentCoding → Str
  | .gzip => "gzip".toList
  | .deflate => "deflate".toList
  | .brotli => "br".toList
  | .zstd => "zstd".toList
  | .identity => "identity".toList

def parse (token : Str) : Option ContentCoding :=
  let token := Text.toAsciiLowercase (Text.trim token)
  if token = "gzip".toList then some .gzip
  else if token = "x-gzip".toList then some .gzip
  else if token = "deflate".toList then some .deflate
  else if token = "br".toList then some .brotli
  else if token = "zstd".toList then some .zstd
  else if token = "identity".toList then some .identity
  else none

end ContentCoding

def maxContentCodings : Nat := 8

/-- One token of a `Content-Encoding` field, after those before it. -/
def parseToken (codings : List ContentCoding) (token : Str) :
    Except BodyError (List ContentCoding) :=
  let token := Text.trim token
  if token.isEmpty then .ok codings
  else if codings.length = maxContentCodings then .error (.decode "content-encoding".toList)
  else
    match ContentCoding.parse token with
    | none => .error (.decode token)
    | some coding => .ok (codings ++ [coding])

/-- One line of it. -/
def parseLine (codings : List ContentCoding) (value : HeaderValue) :
    Except BodyError (List ContentCoding) :=
  match value.toStr with
  | none => .error (.decode "content-encoding".toList)
  | some text => (text.splitOn ',').foldlM parseToken codings

def parseContentEncoding (values : List HeaderValue) : Except BodyError (List ContentCoding) :=
  values.foldlM parseLine []

end Compression

end Chromulate
