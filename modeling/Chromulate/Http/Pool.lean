import Chromulate.Http.Message
import Chromulate.Lib.Select
import Chromulate.Lib.Table
import Chromulate.Lib.Time

/-!
# The connection pool

`chromulate-http/src/pool.rs`. A connection is filed under the key it was opened for and handed
out under that key only: `Filed` says that something holds of every key and the connections under
it, and every operation keeps it.

Whether a connection still works is the network's business: each call asks. Instants are read off
the clock where the code reads it.
-/

namespace Chromulate.Http

inductive Protocol where
  | http11
  | http2
  deriving DecidableEq

def Protocol.version : Protocol → Version
  | .http11 => .http11
  | .http2 => .http2

/-- `PoolKey`, with the text of the profile's `ConnectionIdentity`. -/
structure PoolKey where
  scheme : Str
  host : Str
  port : Nat
  proxy : Option Str
  identity : Str
  protocol : Protocol
  deriving DecidableEq

/-- `Connection`: a protocol and what sends over it. -/
structure Connection (κ : Type) where
  protocol : Protocol
  sender : κ
  deriving DecidableEq

structure PoolConfig where
  idleTimeout : Duration
  maxPerHost : Nat
  maxTotal : Nat

structure Idle (κ : Type) where
  connection : Connection κ
  since : Instant

/-- `PoolState`. The counter is an integer: below zero it would have underflowed. -/
structure Pool (κ : Type) where
  idle : Table PoolKey (List (Idle κ))
  multiplexed : Table PoolKey (Connection κ)
  idleHeld : Int
  lastSweep : Instant

namespace Pool

variable {κ : Type}

def new (now : Instant) : Pool κ := ⟨∅, ∅, 0, now⟩

section Operations

variable (config : PoolConfig) (usable : κ → Bool)

/-- An entry that may still be handed out. -/
def fresh (now : Instant) (entry : Idle κ) : Bool :=
  (now - entry.since).toNat < config.idleTimeout && usable entry.connection.sender

/-! ## Checking out -/

/-- The loop of `checkout`, over a bucket from its end. -/
def popFresh (now : Instant) : List (Idle κ) → Option (Connection κ) × List (Idle κ)
  | [] => (none, [])
  | entry :: rest =>
    if fresh config usable now entry then (some entry.connection, rest) else popFresh now rest

/-- The part of `checkout` that looks at the idle connections. -/
def checkoutIdle (now : Instant) (key : PoolKey) (pool : Pool κ) :
    Option (Connection κ) × Pool κ :=
  match pool.idle.lookup key with
  | none => (none, pool)
  | some entries =>
    let (found, rest) := popFresh config usable now entries.reverse
    let held := pool.idleHeld - (entries.length - rest.length)
    match found with
    | some connection =>
      (some connection, { pool with
        idle := pool.idle.insert key rest.reverse
        idleHeld := held })
    | none => (none, { pool with idle := pool.idle.erase key, idleHeld := held })

def checkout (now : Instant) (key : PoolKey) (pool : Pool κ) : Option (Connection κ) × Pool κ :=
  match pool.multiplexed.lookup key with
  | some shared =>
    if usable shared.sender then
      if shared.protocol = .http2 then (some shared, pool)
      else checkoutIdle config usable now key pool
    else
      checkoutIdle config usable now key
        { pool with multiplexed := pool.multiplexed.erase key }
  | none => checkoutIdle config usable now key pool

/-! ## Putting back -/

def evictExpired (now : Instant) (pool : Pool κ) : Pool κ :=
  let kept := (pool.idle.mapValues fun entries => entries.filter (fresh config usable now)).retain
    fun _ entries => !entries.isEmpty
  { pool with
    idle := kept
    multiplexed := pool.multiplexed.retain fun _ connection => usable connection.sender
    idleHeld := Table.sumOf List.length kept }

/-- `sweep_if_due`, which reads the clock once more to sweep. -/
def sweepIfDue (now later : Instant) (pool : Pool κ) : Pool κ :=
  if (now - pool.lastSweep).toNat < config.idleTimeout / 4 then pool
  else evictExpired config usable later { pool with lastSweep := now }

/-- An order in which the idle buckets are gone through. -/
abbrev Scan (κ : Type) := Table.Scan PoolKey (List (Idle κ))

/-- The oldest entry of each bucket, and of those the oldest. -/
def oldest (scan : Scan κ) (pool : Pool κ) : Option (PoolKey × Nat × Instant) :=
  Select.minByKey (fun candidate => candidate.2.2) ((scan.run pool.idle).filterMap fun bucket =>
    (Select.minByKey (fun entry => entry.1.since) bucket.2.zipIdx).map fun entry =>
      (bucket.1, entry.2, entry.1.since))

def evictOldest (scan : Scan κ) (pool : Pool κ) : Pool κ :=
  match pool.oldest scan with
  | none => pool
  | some (key, index, _) =>
    match pool.idle.lookup key with
    | none => pool
    | some entries =>
      let rest := entries.eraseIdx index
      { pool with
        idle := if rest.isEmpty then pool.idle.erase key else pool.idle.insert key rest
        idleHeld := pool.idleHeld - 1 }

def releaseMultiplexed (key : PoolKey) (connection : Connection κ) (pool : Pool κ) : Pool κ :=
  match pool.multiplexed.lookup key with
  | some existing =>
    if usable existing.sender then pool
    else { pool with multiplexed := pool.multiplexed.insert key connection }
  | none =>
    if config.maxTotal ≤ pool.multiplexed.entries.length then pool
    else { pool with multiplexed := pool.multiplexed.insert key connection }

/-- What `release` reads off the clock, to see whether a sweep is due, to sweep, and to date the
new entry; and the order in which it meets the buckets. -/
structure Readings (κ : Type) where
  due : Instant
  sweep : Instant
  filed : Instant
  scan : Scan κ

/-- The part of `release` that files an idle connection. An error is a panic, with the state it
leaves behind: `remove(0)` of an empty bucket. -/
def fileIdle (filed : Instant) (key : PoolKey) (connection : Connection κ) (pool : Pool κ) :
    Except (Pool κ) (Pool κ) :=
  let entries := (pool.idle.lookup key).getD []
  if config.maxPerHost ≤ entries.length then
    match entries with
    | [] => .error { pool with idle := pool.idle.insert key [] }
    | _ :: rest =>
      .ok { pool with idle := pool.idle.insert key (rest ++ [⟨connection, filed⟩]) }
  else
    .ok { pool with
      idle := pool.idle.insert key (entries ++ [⟨connection, filed⟩])
      idleHeld := pool.idleHeld + 1 }

def release (clock : Readings κ) (key : PoolKey) (connection : Connection κ) (pool : Pool κ) :
    Except (Pool κ) (Pool κ) :=
  if !usable connection.sender then .ok pool
  else
    let pool := sweepIfDue config usable clock.due clock.sweep pool
    if connection.protocol = .http2 then
      .ok (releaseMultiplexed config usable key connection pool)
    else
      fileIdle config clock.filed key connection
        (if config.maxTotal ≤ pool.idleHeld then pool.evictOldest clock.scan else pool)

def clear (pool : Pool κ) : Pool κ := { pool with idle := ∅, multiplexed := ∅, idleHeld := 0 }

/-- The pool after a call, whether it panicked or not. -/
def left : Except (Pool κ) (Pool κ) → Pool κ
  | .ok pool => pool
  | .error pool => pool

end Operations

/-! ## Connections stay under their keys -/

/-- Something holds of every key and of the connections under it. -/
structure Filed (Good : PoolKey → Connection κ → Prop) (pool : Pool κ) : Prop where
  idle : ∀ key entries, pool.idle.lookup key = some entries →
    ∀ entry ∈ entries, Good key entry.connection
  multiplexed : ∀ key connection, pool.multiplexed.lookup key = some connection →
    Good key connection

variable {Good : PoolKey → Connection κ → Prop} {config : PoolConfig} {usable : κ → Bool}

theorem filed_new (now : Instant) : (new now : Pool κ).Filed Good where
  idle key entries h := by simp [new] at h
  multiplexed key connection h := by simp [new] at h

variable {key : PoolKey} {pool : Pool κ} {connection : Connection κ}

theorem Filed.insert (h : pool.Filed Good) {entries : List (Idle κ)}
    (hgood : ∀ entry ∈ entries, Good key entry.connection) (held : Int) :
    Filed Good { pool with idle := pool.idle.insert key entries, idleHeld := held } where
  idle k found hfound entry hmem := by
    rcases Table.lookup_insert_eq_some.mp hfound with ⟨rfl, rfl⟩ | ⟨-, hold⟩
    · exact hgood entry hmem
    · exact h.idle k found hold entry hmem
  multiplexed := h.multiplexed

theorem Filed.erase (h : pool.Filed Good) (key : PoolKey) (held : Int) :
    Filed Good { pool with idle := pool.idle.erase key, idleHeld := held } where
  idle k found hfound := h.idle k found (Table.lookup_erase_eq_some.mp hfound).2
  multiplexed := h.multiplexed

theorem Filed.multiplex (h : pool.Filed Good) (hgood : Good key connection) :
    Filed Good { pool with multiplexed := pool.multiplexed.insert key connection } where
  idle := h.idle
  multiplexed k found hfound := by
    rcases Table.lookup_insert_eq_some.mp hfound with ⟨rfl, rfl⟩ | ⟨-, hold⟩
    · exact hgood
    · exact h.multiplexed k found hold

/-- The loop pops the entries it rejects, and the one it takes. -/
theorem popFresh_suffix (config : PoolConfig) (usable : κ → Bool) (now : Instant)
    (entries : List (Idle κ)) :
    (∀ connection, (popFresh config usable now entries).1 = some connection →
      ∃ entry, entry.connection = connection ∧
        entry :: (popFresh config usable now entries).2 <:+ entries) ∧
    ((popFresh config usable now entries).1 = none →
      (popFresh config usable now entries).2 = []) := by
  induction entries with
  | nil => simp [popFresh]
  | cons entry rest ih =>
    unfold popFresh
    split_ifs
    · refine ⟨fun connection hfound => ?_, fun h => by cases h⟩
      cases hfound
      exact ⟨entry, rfl, List.suffix_refl _⟩
    · refine ⟨fun connection hfound => ?_, ih.2⟩
      obtain ⟨taken, heq, hsuffix⟩ := ih.1 connection hfound
      exact ⟨taken, heq, hsuffix.trans (List.suffix_cons _ _)⟩

theorem Filed.checkoutIdle (h : pool.Filed Good) (now : Instant) (key : PoolKey) :
    (pool.checkoutIdle config usable now key).2.Filed Good ∧
      ∀ connection, (pool.checkoutIdle config usable now key).1 = some connection →
        Good key connection := by
  unfold Pool.checkoutIdle
  cases hbucket : pool.idle.lookup key with
  | none => exact ⟨h, fun _ hnone => by cases hnone⟩
  | some entries =>
    have hgood : ∀ entry ∈ entries.reverse, Good key entry.connection := fun entry hmem =>
      h.idle key entries hbucket entry (List.mem_reverse.mp hmem)
    simp only
    split
    · rename_i connection hfound
      obtain ⟨taken, htaken, hsuffix⟩ :=
        (popFresh_suffix config usable now entries.reverse).1 connection hfound
      refine ⟨h.insert (fun entry hmem => ?_) _, fun c hc => ?_⟩
      · exact hgood entry (hsuffix.subset (List.mem_cons_of_mem _ (List.mem_reverse.mp hmem)))
      · cases hc
        exact htaken ▸ hgood taken (hsuffix.subset List.mem_cons_self)
    · exact ⟨h.erase key _, fun _ hnone => by cases hnone⟩

/-- **A connection is handed out under its key.** -/
theorem Filed.checkout (h : pool.Filed Good) (config : PoolConfig) (usable : κ → Bool)
    (now : Instant) (key : PoolKey) :
    (pool.checkout config usable now key).2.Filed Good ∧
      ∀ connection, (pool.checkout config usable now key).1 = some connection →
        Good key connection := by
  unfold Pool.checkout
  cases hshared : pool.multiplexed.lookup key with
  | none => exact h.checkoutIdle now key
  | some shared =>
    simp only
    split_ifs
    · refine ⟨h, fun connection heq => ?_⟩
      cases heq
      exact h.multiplexed key _ hshared
    · exact h.checkoutIdle now key
    · have herased : Filed Good { pool with multiplexed := pool.multiplexed.erase key } :=
        ⟨h.idle, fun k found hfound =>
          h.multiplexed k found (Table.lookup_erase_eq_some.mp hfound).2⟩
      exact herased.checkoutIdle now key

theorem Filed.sweepIfDue (h : pool.Filed Good) (now later : Instant) :
    (pool.sweepIfDue config usable now later).Filed Good := by
  unfold Pool.sweepIfDue
  split_ifs
  · exact h
  · constructor
    · intro key entries hfound entry hmem
      simp only [evictExpired, Table.lookup_retain, Table.lookup_mapValues,
        Option.filter_eq_some_iff, Option.map_eq_some_iff] at hfound
      obtain ⟨⟨bucket, hbucket, rfl⟩, -⟩ := hfound
      exact h.idle key bucket hbucket entry (List.mem_of_mem_filter hmem)
    · intro key connection hfound
      simp only [evictExpired, Table.lookup_retain, Option.filter_eq_some_iff] at hfound
      exact h.multiplexed key connection hfound.1

theorem Filed.evictOldest (h : pool.Filed Good) (scan : Scan κ) :
    (pool.evictOldest scan).Filed Good := by
  unfold Pool.evictOldest
  cases pool.oldest scan with
  | none => exact h
  | some victim =>
    cases hbucket : pool.idle.lookup victim.1 with
    | none => simpa [hbucket] using h
    | some entries =>
      simp only [hbucket]
      split_ifs
      · exact h.erase _ _
      · exact h.insert (fun entry hmem =>
          h.idle _ entries hbucket entry (List.mem_of_mem_eraseIdx hmem)) _

theorem Filed.releaseMultiplexed (h : pool.Filed Good) (hgood : Good key connection) :
    (pool.releaseMultiplexed config usable key connection).Filed Good := by
  unfold Pool.releaseMultiplexed
  split <;> split_ifs
  · exact h
  · exact h.multiplex hgood
  · exact h
  · exact h.multiplex hgood

theorem Filed.fileIdle (h : pool.Filed Good) (hgood : Good key connection) (filed : Instant) :
    (left (pool.fileIdle config filed key connection)).Filed Good := by
  have hbucket : ∀ entry ∈ (pool.idle.lookup key).getD [], Good key entry.connection := by
    intro entry hmem
    cases hlookup : pool.idle.lookup key with
    | none => simp [hlookup] at hmem
    | some entries =>
      rw [hlookup] at hmem
      exact h.idle key entries hlookup entry hmem
  unfold Pool.fileIdle
  generalize (pool.idle.lookup key).getD [] = entries at hbucket
  simp only
  split_ifs
  · cases entries with
    | nil => exact h.insert (fun _ hmem => by cases hmem) _
    | cons first rest =>
      refine h.insert (fun entry hmem => ?_) _
      rcases List.mem_append.mp hmem with hold | hnew
      · exact hbucket entry (List.mem_cons_of_mem _ hold)
      · cases List.mem_singleton.mp hnew
        exact hgood
  · refine h.insert (fun entry hmem => ?_) _
    rcases List.mem_append.mp hmem with hold | hnew
    · exact hbucket entry hold
    · cases List.mem_singleton.mp hnew
      exact hgood

/-- **A connection that fits its key may be put back.** -/
theorem Filed.release (h : pool.Filed Good) (hgood : Good key connection) (clock : Readings κ) :
    (left (pool.release config usable clock key connection)).Filed Good := by
  unfold Pool.release
  simp only
  split_ifs
  · exact h
  · exact (h.sweepIfDue _ _).releaseMultiplexed hgood
  · exact ((h.sweepIfDue _ _).evictOldest _).fileIdle hgood _
  · exact (h.sweepIfDue _ _).fileIdle hgood _

end Pool

end Chromulate.Http
