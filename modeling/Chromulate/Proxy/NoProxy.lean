import Chromulate.Core.Request
import Chromulate.Lib.Ip

/-!
# The bypass list

`chromulate-proxy/src/no_proxy.rs`: the `NO_PROXY` convention, read from text and asked about a
host.
-/

namespace Chromulate.Proxy

open Text

open Ip (IpAddr)

inductive Entry where
  | exact (text : Str)
  | suffix (text : Str)
  | localhost
  | cidr (network : IpAddr) (length : Nat)
  deriving DecidableEq

structure NoProxy where
  entries : List Entry
  matchAll : Bool
  deriving DecidableEq

/-! ## Blocks of addresses -/

/-- `mask_u32` and `mask_u128`. -/
def mask (width length : Nat) : BitVec width :=
  if length = 0 then 0 else BitVec.allOnes width <<< (width - length)

/-- `ip_in_cidr`: blocks hold addresses of their own family. -/
def ipInCidr (candidate network : IpAddr) (length : Nat) : Bool :=
  match candidate, network with
  | .v4 candidate, .v4 network =>
    candidate &&& mask 32 length == network &&& mask 32 length
  | .v6 candidate, .v6 network =>
    candidate &&& mask 128 length == network &&& mask 128 length
  | _, _ => false

/-- The length of an address. -/
def maxLength : IpAddr → Nat
  | .v4 _ => 32
  | .v6 _ => 128

def parseCidr (token network length : Str) : Except Error Entry :=
  let invalid (what : Str) : Error :=
    .config ("invalid no_proxy CIDR entry `".toList ++ token ++ "`: ".toList ++ what)
  match Ip.parse network with
  | none => .error (invalid "not an IP network".toList)
  | some ip =>
    match parseUnsigned 255 length with
    | none => .error (invalid "not a prefix length".toList)
    | some bits =>
      if maxLength ip < bits then
        .error (invalid ("prefix length ".toList ++ (toString bits).toList ++
          " exceeds ".toList ++ (toString (maxLength ip)).toList))
      else .ok (.cidr ip bits)

/-! ## The list -/

namespace NoProxy

def none : NoProxy := ⟨[], false⟩

/-- What a token other than `*` is read as. -/
def entryOf (token : Str) : Except Error Entry :=
  if toAsciiLowercase token = "localhost".toList then .ok .localhost
  else
    match splitOnce '/' token with
    | some (network, length) => parseCidr token network length
    | Option.none =>
      match stripPrefix ['.'] token with
      | some suffix => .ok (.suffix (toAsciiLowercase suffix))
      | Option.none => .ok (.exact (toAsciiLowercase token))

/-- One turn of the loop of `parse`. -/
def absorb (list : NoProxy) (token : Str) : Except Error NoProxy :=
  if token.isEmpty then .ok list
  else if token = "*".toList then .ok { list with matchAll := true }
  else
    match entryOf token with
    | .error error => .error error
    | .ok entry => .ok { list with entries := list.entries ++ [entry] }

def parse (raw : Str) : Except Error NoProxy :=
  (raw.splitOn ',').foldlM (fun list piece => list.absorb (trim piece)) none

/-- Whether an entry is about a host, given also as an address if it is one. -/
def hit (host : Str) (asIp : Option IpAddr) : Entry → Bool
  | .exact text => host = text
  | .suffix text => host = text || ('.' :: text).isSuffixOf host
  | .localhost => host = "localhost".toList || asIp.any IpAddr.isLoopback
  | .cidr network length => asIp.any fun ip => ipInCidr ip network length

/-- `NoProxy::matches`. -/
def matchesHost (list : NoProxy) (host : Str) : Bool :=
  list.matchAll ||
    let host := toAsciiLowercase (host.rdropWhile (· = '.'))
    list.entries.any (hit host (Ip.parse host))

end NoProxy

end Chromulate.Proxy
