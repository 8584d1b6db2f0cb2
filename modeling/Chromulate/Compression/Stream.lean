import Chromulate.Cache.Directive
import Chromulate.Compression.Coding

/-!
# Decoders

`chromulate-compression/src/stream.rs`: what stands between a coded body and the body that is read
in its place. A decoder is another crate's. All that is known of one is how it reads: it asks its
source for more, gives some bytes, or fails, and a read that gives nothing is the end (`Codec`).
Around it, a `Layer` counts what it gives and holds that against the limits of the guard.
-/

namespace Chromulate

/-- What polling a body brings. -/
inductive Outcome where
  | pending
  | data (chunk : Bytes)
  | error (error : BodyError)
  | done
  deriving DecidableEq

/-- The bytes of an answer. -/
def Outcome.bytes : Outcome → Bytes
  | .data chunk => chunk
  | _ => []

namespace Compression

/-- What a decoder does when it is read from. -/
inductive Read (D : Type*) where
  /-- It needs its source, and goes on from what that tells it: some bytes, or that it has ended. -/
  | asks (told : Option Bytes → D)
  | gives (chunk : Bytes) (next : D)
  | fails

/-- The decoders of `async-compression`. -/
structure Codec (D : Type*) where
  start : ContentCoding → D
  read : D → Read D

/-- What becomes of a decoder that is told something. -/
def Codec.resume {D : Type*} (codec : Codec D) (decoder : D) (told : Option Bytes) : D :=
  match codec.read decoder with
  | .asks resume => resume told
  | _ => decoder

structure ExpansionGuard where
  maxDecompressedSize : Nat
  maxRatio : Nat

def ExpansionGuard.checkLimits (guard : ExpansionGuard) (decoded encoded : Nat) :
    Option BodyError :=
  if guard.maxDecompressedSize < decoded then some (.bodyTooLarge guard.maxDecompressedSize)
  else
    let ratioLimit := min (encoded * guard.maxRatio) Cache.u64Max
    if 0 < encoded ∧ ratioLimit < decoded then some (.bodyTooLarge ratioLimit) else none

/-- `GuardedStream` around `ReaderStream`, which lets go of its reader at the end or an error. What
it counts in a `u64` is counted in full: fewer than `2 ^ 64` bytes do not make it wrap. -/
structure Layer (D : Type*) where
  reader : Option D
  decodedSoFar : Nat
  coding : ContentCoding

namespace Layer

variable {D : Type*} (codec : Codec D) (guard : ExpansionGuard)

/-- A layer of `decode_stream`. -/
def new (coding : ContentCoding) : Layer D := ⟨some (codec.start coding), 0, coding⟩

/-- `GuardedStream::poll_next`, up to where the decoder needs its source. -/
def poll (encodedSoFar : Nat) (layer : Layer D) : Layer D × Option Outcome :=
  match layer.reader with
  | none => (layer, some .done)
  | some decoder =>
    match codec.read decoder with
    | .asks _ => (layer, none)
    | .fails => ({ layer with reader := none }, some (.error (.decode layer.coding.asStr)))
    | .gives [] _ => ({ layer with reader := none }, some .done)
    | .gives chunk next =>
      let decodedSoFar := layer.decodedSoFar + chunk.length
      let outcome := match guard.checkLimits decodedSoFar encodedSoFar with
        | some error => Outcome.error error
        | none => .data chunk
      ({ layer with reader := some next, decodedSoFar := decodedSoFar }, some outcome)

/-- What a layer makes of its source's answer: an answer of its own, or another read of the decoder.
`StreamReader` passes over empty chunks, and an error of the source is the decoder's. -/
def tell (layer : Layer D) : Outcome → Layer D × Option Outcome
  | .pending => (layer, some .pending)
  | .error error => ({ layer with reader := none }, some (.error error))
  | .data [] => (layer, none)
  | .data chunk => ({ layer with reader := layer.reader.map (codec.resume · (some chunk)) }, none)
  | .done => ({ layer with reader := layer.reader.map (codec.resume · none) }, none)

end Layer

end Compression

end Chromulate
