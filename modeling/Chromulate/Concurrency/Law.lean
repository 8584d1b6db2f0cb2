import Chromulate.Lib.Time
import Chromulate.Lib.Rational

/-!
# The control law

`chromulate-concurrency/src/adaptive.rs`, the part that runs inside an entry's lock: the
configuration, the entry (`Origin`), taking a slot and what a completed request teaches. Every
function is one critical section or a part of one; who enters it when is the business of
`Concurrency.Adaptive`.

Floating point enters in one place, the scaling of a duration, which is a parameter
(`Shared.scale`). No result depends on what it computes.
-/

namespace Chromulate.Concurrency

/-! ## Configuration -/

/-- `ConcurrencyConfig`. -/
structure Config where
  min : Nat
  max : Nat
  probe : Nat
  cleanProbesBeforeIncrease : Nat
  degradation : F64
  hold : Duration
  cooldown : Duration
  maxCooldown : Duration
  maxPause : Duration
  capacity : Nat
  deriving DecidableEq

namespace Config

def defaultOriginCapacity : Nat := 4096

def default : Config where
  min := 1
  max := 6
  probe := 5
  cleanProbesBeforeIncrease := 4
  degradation := .finite 2
  hold := Duration.fromSecs 30
  cooldown := Duration.fromSecs 5
  maxCooldown := Duration.fromSecs 300
  maxPause := Duration.fromSecs 3600
  capacity := defaultOriginCapacity

/-- The degradation `sanitised` leaves: finite and above one. -/
def usableDegradation : F64 → ℚ
  | .finite value => if 1 < value then value else 2
  | .nonFinite => 2

def sanitised (config : Config) : Config where
  min := Nat.max config.min 1
  max := Nat.max config.max (Nat.max config.min 1)
  probe := Nat.max config.probe 1
  cleanProbesBeforeIncrease := Nat.max config.cleanProbesBeforeIncrease 1
  degradation := .finite (usableDegradation config.degradation)
  hold := config.hold
  cooldown := config.cooldown
  maxCooldown := Nat.max config.maxCooldown config.cooldown
  maxPause := Nat.min config.maxPause (Duration.fromSecs 86400)
  capacity := Nat.max config.capacity 1

def purgeBatch (config : Config) : Nat := Nat.max (config.capacity / 16) 1

def purgeTarget (config : Config) : Nat := Nat.max (config.capacity - config.purgeBatch) 1

theorem sanitised_min_le_max (config : Config) : config.sanitised.min ≤ config.sanitised.max :=
  Nat.le_max_right _ _

end Config

/-- `Shared`: the configuration in force, the recovery interval and the arithmetic of `scale`. -/
structure Shared where
  config : Config
  ceilingRecovery : Option Duration
  /-- `scale`: a duration times a factor, in floating point, saturating. -/
  scale : Duration → F64 → Duration

/-- What `AdaptiveConcurrency::with_config` and `with_ceiling_recovery` build. -/
def Shared.new (config : Config) (ceilingRecovery : Option Duration)
    (scale : Duration → F64 → Duration) : Shared :=
  ⟨config.sanitised, ceilingRecovery, scale⟩

/-! ## Entries -/

inductive Signal where
  | healthy
  | neutral
  | backpressure (retryAfter : Option Duration)
  | refused
  | failed
  deriving DecidableEq

/-- `Origin`: the mutable half of an entry. -/
structure Origin where
  limit : Nat
  inFlight : Nat
  ceiling : Nat
  baseline : Option Duration
  probeTotal : Duration
  probeSamples : Nat
  cleanProbes : Nat
  saturated : Bool
  refused : Bool
  refusals : Nat
  retryAfterRequested : Option Duration
  resumeAt : Option Instant
  holdUntil : Option Instant
  ceilingSince : Option Instant
  deriving DecidableEq

def u32Max : Nat := 2 ^ 32 - 1

namespace Origin

def new (config : Config) : Origin where
  limit := config.min
  inFlight := 0
  ceiling := config.max
  baseline := none
  probeTotal := 0
  probeSamples := 0
  cleanProbes := 0
  saturated := false
  refused := false
  refusals := 0
  retryAfterRequested := none
  resumeAt := none
  holdUntil := none
  ceilingSince := none

def hasLesson (config : Config) (origin : Origin) : Bool :=
  origin.refused || origin.ceiling < config.max

def abandonProbe (origin : Origin) : Origin :=
  { origin with probeTotal := 0, probeSamples := 0, cleanProbes := 0 }

def limitChanged (origin : Origin) : Origin := { origin.abandonProbe with saturated := false }

def pauseRemaining (origin : Origin) (now : Instant) : Duration :=
  match origin.resumeAt with
  | some resumeAt => resumeAt.saturatingDurationSince now
  | none => 0

/-- `OriginState::try_take_slot`: the entry with the slot taken, if one is free. -/
def tryTakeSlot (origin : Origin) (waited : Bool) : Option Origin :=
  if origin.inFlight < origin.limit then
    some { origin with
      inFlight := origin.inFlight + 1
      saturated := waited || origin.saturated }
  else none

end Origin

/-- `deadline`: an addition that does not fit leaves the instant as it is. -/
def deadline (now : Instant) (span : Duration) : Instant := (now.checkedAdd span).getD now

def cooldown (config : Config) (refusals : Nat) : Duration :=
  Nat.min (config.cooldown.saturatingMul (2 ^ Nat.min (refusals - 1) 31)) config.maxCooldown

def degradationFloor : Duration := Duration.fromMillis 5

def baselineDrift : F64 := .finite (105 / 100)

/-! ## What a completed request teaches -/

namespace Origin

/-- The pause a refusal earns. -/
def pauseFor (config : Config) (refusals : Nat) : Option Duration → Duration
  | some asked => Nat.min asked config.maxPause
  | none => cooldown config refusals

/-- `refuse`: a `429` or a `503`. -/
def refuse (config : Config) (now : Instant) (retryAfter : Option Duration) (origin : Origin) :
    Origin :=
  let refusals := Nat.min (origin.refusals + 1) u32Max
  let learned := Nat.max (origin.limit / 2) config.min
  let ceiling := Nat.min origin.ceiling learned
  let pause := pauseFor config refusals retryAfter
  limitChanged { origin with
    refusals := refusals
    retryAfterRequested := retryAfter
    ceiling := ceiling
    limit := Nat.min origin.limit ceiling
    ceilingSince := some now
    resumeAt := some (deadline now pause)
    holdUntil := some (deadline now (pause.saturatingAdd config.hold))
    baseline := none }

def relaxCeiling (shared : Shared) (now : Instant) (origin : Origin) : Origin :=
  match shared.ceilingRecovery with
  | none => origin
  | some interval =>
    if shared.config.max ≤ origin.ceiling then origin
    else
      match origin.ceilingSince with
      | none => origin
      | some since =>
        if now < deadline since interval then origin
        else { origin with ceiling := origin.ceiling + 1, ceilingSince := some now }

/-- The rest of `healthy` after a clean probe: conditions 4 to 8 of the increase rule. -/
def credit (config : Config) (now : Instant) (origin : Origin) : Origin :=
  if origin.holdUntil.any (now < ·) then origin
  else
    let origin := { origin with cleanProbes := Nat.min (origin.cleanProbes + 1) u32Max }
    if origin.cleanProbes < config.cleanProbesBeforeIncrease then origin
    else if origin.refused then origin
    else if !origin.saturated then origin
    else if Nat.min origin.ceiling config.max ≤ origin.limit then origin
    else limitChanged { origin with limit := origin.limit + 1 }

/-- How slow a probe may be against a baseline: by ratio, and by an absolute margin. -/
def threshold (shared : Shared) (baseline : Duration) : Duration :=
  Nat.max (shared.scale baseline shared.config.degradation)
    (baseline.saturatingAdd degradationFloor)

/-- The verdict of a probe with this mean, against a baseline. -/
def verdict (shared : Shared) (now : Instant) (mean baseline : Duration) (origin : Origin) :
    Origin :=
  let origin := { origin with
    baseline := some (Nat.min mean (shared.scale baseline baselineDrift)) }
  if threshold shared baseline < mean then
    limitChanged { origin with
      limit := Nat.max (origin.limit / 2) shared.config.min
      holdUntil := some (deadline now shared.config.hold) }
  else (origin.relaxCeiling shared now).credit shared.config now

/-- The mean latency of the probe under way, once this response is in it. -/
def probeMean (latency : Duration) (origin : Origin) : Duration :=
  origin.probeTotal.saturatingAdd latency / Nat.min (origin.probeSamples + 1) u32Max

/-- `healthy`: one healthy response, and the verdict it may complete. -/
def healthy (shared : Shared) (now : Instant) (latency : Duration) (origin : Origin) : Origin :=
  if origin.probeSamples + 1 < shared.config.probe then
    { origin with
      probeTotal := origin.probeTotal.saturatingAdd latency
      probeSamples := origin.probeSamples + 1 }
  else
    let mean := origin.probeMean latency
    let origin := { origin with probeTotal := 0, probeSamples := 0 }
    match origin.baseline with
    | none => { origin with baseline := some mean }
    | some baseline => origin.verdict shared now mean baseline

/-- `apply`: the control law. -/
def apply (shared : Shared) (now : Instant) (latency : Duration) (origin : Origin) :
    Signal → Origin
  | .healthy => origin.healthy shared now latency
  | .refused => abandonProbe { origin with refused := true }
  | .backpressure retryAfter => origin.refuse shared.config now retryAfter
  | .neutral => origin.abandonProbe
  | .failed => origin.abandonProbe

/-- The critical section of `release`: return the slot, and learn from the signal if there is
one. -/
def release (shared : Shared) (now : Instant) (latency : Duration) (signal : Option Signal)
    (origin : Origin) : Origin :=
  let origin := { origin with inFlight := origin.inFlight - 1 }
  match signal with
  | some signal => origin.apply shared now latency signal
  | none => origin

end Origin

end Chromulate.Concurrency
