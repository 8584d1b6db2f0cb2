import Mathlib.Data.Int.Basic
import Mathlib.Algebra.Ring.Nat
import Mathlib.Algebra.Ring.Int.Defs

/-!
# Instants

`SystemTime` as the number of nanoseconds since the Unix epoch, negative before it, and
`Duration` as a number of nanoseconds. Sixty-four bits of seconds bound what an addition can
reach.
-/

namespace Chromulate

/-- `std::time::SystemTime`, in nanoseconds since the Unix epoch. -/
abbrev SystemTime := Int

/-- `std::time::Instant`, in nanoseconds from the start of its clock. -/
abbrev Instant := Int

/-- `std::time::Duration`, in nanoseconds. -/
abbrev Duration := Nat

namespace SystemTime

def nanosPerSec : Nat := 1000000000

/-- The last instant a `SystemTime` can name. -/
def latest : SystemTime := 2 ^ 63 * nanosPerSec - 1

def checkedAdd (time : SystemTime) (span : Duration) : Option SystemTime :=
  if time + span ≤ latest then some (time + span) else none

/-- The first instant a `SystemTime` can name. -/
def earliest : SystemTime := -(2 ^ 63 * nanosPerSec)

def checkedSub (time : SystemTime) (span : Duration) : Option SystemTime :=
  if earliest ≤ time - span then some (time - span) else none

/-- The instant a whole number of seconds after the epoch, or before it. -/
def ofEpochSeconds (seconds : Int) : SystemTime := seconds * nanosPerSec

/-- `SystemTime::duration_since`, when `earlier` is not later. -/
def durationSince (time earlier : SystemTime) : Option Duration :=
  if earlier ≤ time then some (time - earlier).toNat else none

end SystemTime

namespace Duration

def fromSecs (seconds : Nat) : Duration := seconds * SystemTime.nanosPerSec

/-- `Duration::MAX`: `u64::MAX` seconds and the nanoseconds short of one more. -/
def max : Duration := 2 ^ 64 * SystemTime.nanosPerSec - 1

def saturatingAdd (a b : Duration) : Duration := min (a + b) max

def saturatingMul (span : Duration) (factor : Nat) : Duration := min (span * factor) max

def fromMillis (millis : Nat) : Duration := millis * 1000000

def asSecs (span : Duration) : Nat := span / SystemTime.nanosPerSec

end Duration

namespace Instant

/-- The last instant there is: sixty-three bits of seconds, as for `SystemTime`. -/
def latest : Instant := 2 ^ 63 * SystemTime.nanosPerSec - 1

def checkedAdd (time : Instant) (span : Duration) : Option Instant :=
  if time + span ≤ latest then some (time + span) else none

def saturatingDurationSince (time earlier : Instant) : Duration := (time - earlier).toNat

end Instant

end Chromulate
