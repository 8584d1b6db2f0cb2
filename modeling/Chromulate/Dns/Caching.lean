import Chromulate.Core.Host
import Chromulate.Lib.Calls
import Chromulate.Lib.Flights
import Chromulate.Lib.Table
import Chromulate.Lib.Time

/-!
# The caching resolver

`CachingResolver` of `chromulate-dns/src/caching.rs`, as many tasks call `resolve` at once. A call
reads the clock, then decides under the lock: it takes a cached answer, joins the lookup in flight
or starts one. A lookup is a shared future, driven by whoever polls it; when the inner resolver has
answered, that poll reads the clock, takes the lock and files the outcome before it hands it out.
Calls go away at their await, and the clock moves on, between any two of these steps.
-/

namespace Chromulate.Dns

open Flights (Fleet)

variable {α : Type*}

/-- `CacheOutcome`, for any type of addresses. -/
inductive CacheOutcome (α : Type*) where
  | ok (addrs : List α)
  | err (message : Str)
  deriving DecidableEq

/-- `Error::Resolve`. -/
structure ResolveError where
  host : Str
  source : Str
  deriving DecidableEq

/-- What `resolve` makes of an outcome. -/
def CacheOutcome.result (outcome : CacheOutcome α) (host : Str) : ResolveError ⊕ List α :=
  match outcome with
  | .ok addrs => .inr addrs
  | .err message => .inl ⟨host, message⟩

/-- `Slot`. A weak handle is the position of its lookup. -/
inductive Slot (α : Type*) where
  | inFlight (lookup : Nat)
  | cached (outcome : CacheOutcome α) (expiresAt : Option Instant)
  deriving DecidableEq

/-- `expires_at.is_none_or(|at| at > now)`. -/
def unexpired (expiresAt : Option Instant) (now : Instant) : Bool :=
  expiresAt.all fun expiry => decide (now < expiry)

def minSweepSize : Nat := 64

structure Slots (α : Type*) where
  entries : Table HostPort (Slot α)
  sweepAt : Nat

/-- An outcome is filed: for which target, from which lookup, and until when. -/
structure Filing (α : Type*) where
  target : HostPort
  lookup : Nat
  outcome : CacheOutcome α
  expiresAt : Option Instant

/-- The two durations of `Cache`. -/
structure Ttls where
  positive : Duration
  negative : Duration

/-- The cache, the clock, and the lookups that were ever started. `settling` are those whose inner
lookup has answered and whose outcome is on its way to the cache; `filings` is what has been
filed, in order, which nothing reads. -/
structure Resolver (α : Type*) where
  slots : Slots α
  lookups : Fleet HostPort (CacheOutcome α)
  settling : List Nat
  clock : Instant
  filings : List (Filing α)

/-- `CachingResolver::with_clock`. -/
def Resolver.new (clock : Instant) : Resolver α := ⟨⟨∅, minSweepSize⟩, [], [], clock, []⟩

/-! ## Under the lock -/

/-- What `sweep` keeps. -/
def keeps (lookups : Fleet HostPort (CacheOutcome α)) (now : Instant) : Slot α → Bool
  | .cached _ expiresAt => unexpired expiresAt now
  | .inFlight i => Flights.upgrades lookups i

/-- `sweep`. No map is so long that the doubling saturates. -/
def sweep (slots : Slots α) (lookups : Fleet HostPort (CacheOutcome α)) (now : Instant) :
    Slots α :=
  let entries := slots.entries.retain fun _ slot => keeps lookups now slot
  ⟨entries, max (2 * entries.entries.length) minSweepSize⟩

/-- Where a call of `resolve` stands. -/
inductive Point (α : Type*) where
  | arriving (target : HostPort)
  /-- The clock is read; next is the lock. -/
  | looking (target : HostPort) (now : Instant)
  /-- In the await, with a handle. The call looked at the map when `consulted` outcomes had been
  filed. -/
  | waiting (target : HostPort) (lookup : Nat) (now : Instant) (consulted : Nat)
  /-- In the poll that finished the inner lookup, before `settle` reads the clock. -/
  | resolved (target : HostPort) (lookup : Nat) (now : Instant) (consulted : Nat)
      (outcome : CacheOutcome α)
  /-- In `settle`, with its reading of the clock, before the lock. -/
  | filing (target : HostPort) (lookup : Nat) (now : Instant) (consulted : Nat)
      (outcome : CacheOutcome α) (settled : Instant)

/-- What a call comes to. -/
inductive Answer (α : Type*) where
  | answered (target : HostPort) (now : Instant) (consulted : Nat)
      (result : ResolveError ⊕ List α)
  | cancelled

/-- The answer of a call that got an outcome. -/
def Answer.ofOutcome (target : HostPort) (now : Instant) (consulted : Nat)
    (outcome : CacheOutcome α) : Answer α :=
  .answered target now consulted (outcome.result target.host)

/-- What moves a call. -/
inductive Input (α : Type*) where
  | proceed
  /-- A poll, and what the inner lookup answers if it is ready. -/
  | poll (inner : Option (CacheOutcome α))
  | cancel

namespace Resolver

/-- A new lookup takes the slot of its target. -/
def startLookup (resolver : Resolver α) (target : HostPort) (now : Instant) :
    Resolver α × (Point α ⊕ Answer α) :=
  let slots :=
    if resolver.slots.sweepAt ≤ resolver.slots.entries.entries.length then
      sweep resolver.slots resolver.lookups now
    else resolver.slots
  let i := resolver.lookups.length
  ({ resolver with
      slots := { slots with entries := slots.entries.insert target (.inFlight i) }
      lookups := Flights.start resolver.lookups target },
    .inl (.waiting target i now resolver.filings.length))

/-- The section of `shared_outcome` under the lock. -/
def consult (resolver : Resolver α) (target : HostPort) (now : Instant) :
    Resolver α × (Point α ⊕ Answer α) :=
  match resolver.slots.entries.lookup target with
  | some (.cached outcome expiresAt) =>
    if unexpired expiresAt now then
      (resolver, .inr (.ofOutcome target now resolver.filings.length outcome))
    else resolver.startLookup target now
  | some (.inFlight i) =>
    if Flights.upgrades resolver.lookups i then
      ({ resolver with lookups := Flights.acquire resolver.lookups i },
        .inl (.waiting target i now resolver.filings.length))
    else resolver.startLookup target now
  | none => resolver.startLookup target now

/-- The expiry that `settle` gives an outcome. -/
def expiry (ttls : Ttls) (outcome : CacheOutcome α) (now : Instant) : Option Instant :=
  match outcome with
  | .ok _ => Instant.checkedAdd now ttls.positive
  | .err _ => Instant.checkedAdd now ttls.negative

/-- `Cache::settle` under the lock; the shared lookup is finished with it. -/
def settle (ttls : Ttls) (resolver : Resolver α) (target : HostPort) (i : Nat)
    (outcome : CacheOutcome α) (now : Instant) : Resolver α :=
  let expiresAt := expiry ttls outcome now
  let entries := resolver.slots.entries.insert target (.cached outcome expiresAt)
  { resolver with
    slots := sweep { resolver.slots with entries } resolver.lookups now
    lookups := Flights.finish resolver.lookups i outcome
    settling := resolver.settling.erase i
    filings := resolver.filings ++ [⟨target, i, outcome, expiresAt⟩] }

/-- A handle is dropped. -/
def release (resolver : Resolver α) (i : Nat) : Resolver α :=
  { resolver with lookups := Flights.release resolver.lookups i }

/-- One step of a call. -/
def step (ttls : Ttls) (resolver : Resolver α) (point : Point α) (input : Input α) :
    Resolver α × (Point α ⊕ Answer α) :=
  match point, input with
  | .arriving target, .proceed => (resolver, .inl (.looking target resolver.clock))
  | .arriving _, .cancel => (resolver, .inr .cancelled)
  | .looking target now, .proceed => resolver.consult target now
  | .waiting target i now consulted, .poll inner =>
    match Flights.outcomeOf resolver.lookups i with
    | some outcome => (resolver.release i, .inr (.ofOutcome target now consulted outcome))
    | none =>
      -- one poll at a time drives a shared future
      match inner with
      | some outcome =>
        if i ∈ resolver.settling then (resolver, .inl point)
        else ({ resolver with settling := i :: resolver.settling },
          .inl (.resolved target i now consulted outcome))
      | none => (resolver, .inl point)
  | .waiting _ i _ _, .cancel => (resolver.release i, .inr .cancelled)
  | .resolved target i now consulted outcome, .proceed =>
    (resolver, .inl (.filing target i now consulted outcome resolver.clock))
  | .filing target i now consulted outcome settled, .proceed =>
    ((settle ttls resolver target i outcome settled).release i,
      .inr (.ofOutcome target now consulted outcome))
  | point, _ => (resolver, .inl point)

/-- The clock moves on. -/
def advance (resolver : Resolver α) (span : Duration) : Resolver α :=
  { resolver with clock := resolver.clock + span }

end Resolver

/-- `CachingResolver::resolve`. -/
def method (ttls : Ttls) :
    Calls.Method (Resolver α) (Point α) HostPort (Input α) (Answer α) where
  enter _ target := .inl (.arriving target)
  step := Resolver.step ttls

abbrev World (α : Type*) := Calls.World (Resolver α) (Point α) (Answer α)

abbrev Move (α : Type*) := Calls.Move HostPort (Input α) Duration

/-- What the tasks reach from an empty cache. -/
def reach (ttls : Ttls) (clock : Instant) (moves : List (Move α)) : World α :=
  Calls.World.run (method ttls) Resolver.advance ⟨.new clock, []⟩ moves

end Chromulate.Dns
