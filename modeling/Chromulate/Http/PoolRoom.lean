import Chromulate.Http.PoolBounds

/-!
# Room for one

A release may meet two caps. `max_total` is enforced first, by dropping the connection that has been
idle longest, wherever it is; `max_per_host` next, by dropping the first of the bucket. The second
check does not know of the first: when the longest idle connection was another host's and the bucket
is full, two connections go for the one that comes.

**Theorem (`roomForOne_iff`).** In every pool that sequences of calls lead to, whatever the limits,
a release that does not sweep makes room for one connection exactly unless both caps are met and the
longest idle connection lies in another bucket. Otherwise at most one entry is dropped, no count
shrinks, and what the total cap drops is a longest idle entry.
-/

namespace Chromulate.Http.Pool

variable {κ : Type}

/-- The idle connections of a key. -/
def bucket (key : PoolKey) (pool : Pool κ) : List (Idle κ) := (pool.idle.lookup key).getD []

/-- What holds of a pool whatever its limits are. -/
structure Counted (config : PoolConfig) (pool : Pool κ) : Prop where
  held : pool.idleHeld = pool.count
  perHost : ∀ key entries, pool.idle.lookup key = some entries →
    entries.length ≤ config.maxPerHost

/-! ## Filing -/

section Filing

variable {config : PoolConfig} {pool : Pool κ} {key : PoolKey}

/-- **What `release` does once there is room**: it appends, it shifts, or it panics. -/
theorem fileIdle_cases (config : PoolConfig) (filed : Instant) (key : PoolKey)
    (connection : Connection κ) (pool : Pool κ) :
    ((pool.bucket key).length < config.maxPerHost ∧
      pool.fileIdle config filed key connection = .ok { pool with
        idle := pool.idle.insert key (pool.bucket key ++ [⟨connection, filed⟩])
        idleHeld := pool.idleHeld + 1 }) ∨
    (∃ first rest, pool.bucket key = first :: rest ∧
      config.maxPerHost ≤ (pool.bucket key).length ∧
      pool.fileIdle config filed key connection = .ok { pool with
        idle := pool.idle.insert key (rest ++ [⟨connection, filed⟩]) }) ∨
    (pool.bucket key = [] ∧ config.maxPerHost = 0 ∧
      pool.fileIdle config filed key connection =
        .error { pool with idle := pool.idle.insert key [] }) := by
  unfold fileIdle bucket
  generalize (pool.idle.lookup key).getD [] = entries
  by_cases hfull : config.maxPerHost ≤ entries.length
  · right
    cases entries with
    | nil => exact .inr ⟨rfl, Nat.le_zero.mp hfull, if_pos hfull⟩
    | cons first rest => exact .inl ⟨first, rest, rfl, hfull, if_pos hfull⟩
  · exact .inl ⟨Nat.not_le.mp hfull, if_neg hfull⟩

theorem number_fileIdle_of_lt (h : (pool.bucket key).length < config.maxPerHost)
    (filed : Instant) (connection : Connection κ) (p : Idle κ → Bool) :
    (left (pool.fileIdle config filed key connection)).number p =
      pool.number p + [(⟨connection, filed⟩ : Idle κ)].countP p := by
  rcases fileIdle_cases config filed key connection pool with ⟨-, heq⟩ |
    ⟨-, -, -, hfull, -⟩ | ⟨-, hzero, -⟩
  · have hnumber := number_getD pool key p (pool.bucket key ++ [⟨connection, filed⟩])
      (pool.idleHeld + 1)
    rw [List.countP_append, ← bucket] at hnumber
    rw [heq, left]
    omega
  · omega
  · omega

theorem number_fileIdle_of_cons {first : Idle κ} {rest : List (Idle κ)}
    (hbucket : pool.bucket key = first :: rest) (h : config.maxPerHost ≤ (pool.bucket key).length)
    (filed : Instant) (connection : Connection κ) (p : Idle κ → Bool) :
    (left (pool.fileIdle config filed key connection)).number p + [first].countP p =
      pool.number p + [(⟨connection, filed⟩ : Idle κ)].countP p := by
  rcases fileIdle_cases config filed key connection pool with ⟨hroom, -⟩ |
    ⟨first', rest', hbucket', -, heq⟩ | ⟨hnil, -, -⟩
  · omega
  · cases hbucket.symm.trans hbucket'
    have hnumber := number_getD pool key p (rest ++ [⟨connection, filed⟩]) pool.idleHeld
    have hcons : (first :: rest).countP p = [first].countP p + rest.countP p := by
      rw [← List.countP_append, List.singleton_append]
    rw [List.countP_append, ← bucket, hbucket, hcons] at hnumber
    rw [heq, left]
    omega
  · rw [hbucket] at hnil
    cases hnil

theorem length_bucket_le (h : pool.Counted config) (key : PoolKey) :
    (pool.bucket key).length ≤ config.maxPerHost := by
  unfold bucket
  cases hlookup : pool.idle.lookup key with
  | none => exact Nat.zero_le _
  | some entries => exact h.perHost key entries hlookup

/-- A bucket is replaced by another that is not too long. -/
theorem Counted.replaceBucket (h : pool.Counted config) {entries : List (Idle κ)} {held : Int}
    (hlen : entries.length ≤ config.maxPerHost)
    (hheld : held + (pool.bucket key).length = pool.idleHeld + entries.length) :
    Counted config { pool with idle := pool.idle.insert key entries, idleHeld := held } where
  held := by
    have hcount := number_getD pool key (fun _ => true) entries held
    have hbefore := h.held
    simp only [countP_all] at hcount
    simp only [bucket, count] at hheld hbefore ⊢
    omega
  perHost k found hfound := by
    rcases Table.lookup_insert_eq_some.mp hfound with ⟨-, rfl⟩ | ⟨-, hold⟩
    · exact hlen
    · exact h.perHost k found hold

theorem Counted.fileIdle (h : pool.Counted config) (filed : Instant) (key : PoolKey)
    (connection : Connection κ) :
    (left (pool.fileIdle config filed key connection)).Counted config := by
  have hlen := length_bucket_le h key
  rcases fileIdle_cases config filed key connection pool with ⟨hroom, heq⟩ |
    ⟨first, rest, hbucket, -, heq⟩ | ⟨hbucket, -, heq⟩
  · rw [heq]
    refine h.replaceBucket ?_ ?_
    · rw [List.length_append, List.length_singleton]
      exact hroom
    · rw [List.length_append, List.length_singleton]
      omega
  · rw [hbucket, List.length_cons] at hlen
    rw [heq]
    refine h.replaceBucket ?_ ?_
    · rw [List.length_append, List.length_singleton]
      exact hlen
    · rw [hbucket, List.length_cons, List.length_append, List.length_singleton]
  · rw [heq]
    refine h.replaceBucket (Nat.zero_le _) ?_
    rw [hbucket]

end Filing

/-! ## Whole runs -/

section Runs

variable {config : PoolConfig} {pool : Pool κ}

theorem Counted.shed {after : Pool κ} (h : pool.Counted config) (hsheds : Sheds pool after) :
    after.Counted config where
  held := hsheds.counted h.held
  perHost key rest hrest := by
    obtain ⟨entries, hentries, hle⟩ := hsheds.buckets key rest hrest
    exact hle.trans (h.perHost key entries hentries)

theorem Counted.releaseMultiplexed (h : pool.Counted config) (usable : κ → Bool) (key : PoolKey)
    (connection : Connection κ) :
    (pool.releaseMultiplexed config usable key connection).Counted config := by
  unfold Pool.releaseMultiplexed
  split <;> split_ifs
  · exact h
  · exact ⟨h.held, h.perHost⟩
  · exact h
  · exact ⟨h.held, h.perHost⟩

theorem Counted.releaseSwept (h : pool.Counted config) (usable : κ → Bool) (clock : Readings κ)
    (key : PoolKey) (connection : Connection κ) :
    (left (pool.releaseSwept config usable clock key connection)).Counted config := by
  unfold Pool.releaseSwept
  by_cases hhttp2 : connection.protocol = .http2
  · rw [if_pos hhttp2]
    exact h.releaseMultiplexed usable key connection
  · rw [if_neg hhttp2]
    split_ifs
    · exact (h.shed (evictOldest_spec clock.scan pool).1).fileIdle clock.filed key connection
    · exact h.fileIdle clock.filed key connection

theorem Counted.release (h : pool.Counted config) (usable : κ → Bool) (clock : Readings κ)
    (key : PoolKey) (connection : Connection κ) :
    (left (pool.release config usable clock key connection)).Counted config := by
  by_cases husable : usable connection.sender = true
  · rw [release_usable husable]
    exact (h.shed (sheds_sweepIfDue _ _ _)).releaseSwept usable clock key connection
  · have heq : pool.release config usable clock key connection = .ok pool := by
      simp [Pool.release, husable]
    rw [heq]
    exact h

/-- **The counter and the buckets are right in every pool**, whatever the limits. -/
theorem Reached.counted [DecidableEq κ] (h : Reached config pool) : pool.Counted config := by
  induction h with
  | new now => exact ⟨rfl, fun key entries h => by simp [Pool.new] at h⟩
  | checkout usable now key _ ih => exact ih.shed (sheds_checkout config usable now key _)
  | release usable clock key connection _ _ ih => exact ih.release usable clock key connection
  | clear _ _ => exact ⟨rfl, fun key entries h => by simp [Pool.clear] at h⟩

end Runs

/-! ## Evicting -/

section Evicting

variable {scan : Scan κ} {pool : Pool κ} {key : PoolKey} {index : Nat} {since : Instant}

/-- **What `evict_oldest` takes**: one entry, idle longest, from its bucket. -/
theorem evictOldest_of_oldest (h : pool.oldest scan = some (key, index, since)) :
    ∃ entry, pool.LongestIdle entry ∧
      (∀ p, (pool.evictOldest scan).number p + [entry].countP p = pool.number p) ∧
      (∀ k, k ≠ key → (pool.evictOldest scan).bucket k = pool.bucket k) ∧
      ((pool.evictOldest scan).bucket key).length < (pool.bucket key).length := by
  obtain ⟨entries, hindex, hlookup, hlongest⟩ := longestIdle_of_oldest h
  have hperm := List.getElem_cons_eraseIdx_perm hindex
  have hlen := List.length_eraseIdx_add_one hindex
  have hbucket : pool.bucket key = entries := by simp [bucket, hlookup]
  refine ⟨_, hlongest, ?_⟩
  have hcountP (p : Idle κ → Bool) : (entries.eraseIdx index).countP p +
      [entries.get ⟨index, hindex⟩].countP p = entries.countP p := by
    have hsame := hperm.countP_eq p
    rw [← List.singleton_append, List.countP_append] at hsame
    exact (Nat.add_comm _ _).trans hsame
  unfold evictOldest
  simp only [h, hlookup]
  split_ifs with hempty
  · have hnil := List.isEmpty_iff.mp hempty
    refine ⟨fun p => ?_, fun k hk => ?_, ?_⟩
    · have hnumber := number_remove (p := p) hlookup (pool.idleHeld - 1)
      have hone := hcountP p
      rw [hnil, List.countP_nil, Nat.zero_add] at hone
      rw [hone]
      exact hnumber
    · simp only [bucket, AList.lookup_erase_ne hk]
    · rw [hbucket]
      simp only [bucket, AList.lookup_erase, Option.getD_none, List.length_nil]
      omega
  · refine ⟨fun p => ?_, fun k hk => ?_, ?_⟩
    · have hnumber := number_replace (p := p) hlookup (entries.eraseIdx index) (pool.idleHeld - 1)
      have hone := hcountP p
      omega
    · simp only [bucket, AList.lookup_insert_ne hk]
    · rw [hbucket]
      simp only [bucket, AList.lookup_insert, Option.getD_some]
      omega

end Evicting

/-! ## What a release makes room for -/

section Room

variable {config : PoolConfig} {pool after : Pool κ} {key : PoolKey} {entry : Idle κ}

/-- Room is made for one entry and no more. -/
structure RoomForOne (config : PoolConfig) (pool : Pool κ) (entry : Idle κ) (after : Pool κ) :
    Prop where
  /-- The pool does not shrink. -/
  count_le : pool.count ≤ after.count
  /-- At most one entry is dropped. -/
  dropped : ∀ p, pool.number p + [entry].countP p ≤ after.number p + 1
  /-- What the total cap drops has been idle longest. -/
  longest : config.maxTotal ≤ pool.idleHeld → pool.count ≠ 0 → ∃ old, pool.LongestIdle old ∧
    ∀ p, after.number p + [old].countP p = pool.number p + [entry].countP p

/-- Not both caps are met, or the longest idle connection is in the bucket itself. -/
def spares (config : PoolConfig) (scan : Scan κ) (key : PoolKey) (pool : Pool κ) : Bool :=
  pool.idleHeld < config.maxTotal || (pool.bucket key).length < config.maxPerHost ||
    (pool.oldest scan).all fun victim => victim.1 = key

theorem countP_singleton_le (p : Idle κ → Bool) (entry : Idle κ) : [entry].countP p ≤ 1 :=
  List.countP_le_length

theorem RoomForOne.of_added (hroom : pool.idleHeld < config.maxTotal)
    (h : ∀ p, after.number p = pool.number p + [entry].countP p) :
    RoomForOne config pool entry after where
  count_le := by
    rw [count, count, h]
    exact Nat.le_add_right _ _
  dropped p := by
    rw [h]
    exact Nat.le_succ _
  longest hfull := absurd hroom (Int.not_lt.mpr hfull)

theorem RoomForOne.of_swapped {old : Idle κ}
    (hlongest : config.maxTotal ≤ pool.idleHeld → pool.LongestIdle old)
    (h : ∀ p, after.number p + [old].countP p = pool.number p + [entry].countP p) :
    RoomForOne config pool entry after where
  count_le := by
    have hall := h fun _ => true
    simp only [countP_all] at hall
    exact Nat.le_of_eq (Nat.add_right_cancel hall).symm
  dropped p := by
    rw [← h]
    exact Nat.add_le_add_left (countP_singleton_le p old) _
  longest hfull _ := ⟨old, hlongest hfull, h⟩

theorem RoomForOne.of_empty (h : pool.count = 0) : RoomForOne config pool entry after where
  count_le := by
    rw [h]
    exact Nat.zero_le _
  dropped p := by
    have hle : pool.number p ≤ pool.count :=
      Table.sumOf_le_sumOf (fun entries => List.countP_mono_left fun _ _ _ => rfl) _
    have hone := countP_singleton_le p entry
    omega
  longest _ hne := absurd h hne

/-- With no connection allowed per host there is none. -/
theorem Counted.count_eq_zero (h : pool.Counted config) (hzero : config.maxPerHost = 0) :
    pool.count = 0 := by
  cases holdest : pool.oldest .listed with
  | none => exact count_eq_zero_of_oldest holdest
  | some victim =>
    obtain ⟨entries, hindex, hentries, -⟩ := longestIdle_of_oldest holdest
    have hle := h.perHost _ entries hentries
    omega

theorem roomForOne_fileIdle (h : pool.Counted config) (hroom : pool.idleHeld < config.maxTotal)
    (filed : Instant) (key : PoolKey) (connection : Connection κ) :
    RoomForOne config pool ⟨connection, filed⟩
      (left (pool.fileIdle config filed key connection)) := by
  by_cases hlt : (pool.bucket key).length < config.maxPerHost
  · exact .of_added hroom (number_fileIdle_of_lt hlt filed connection)
  · have hle : config.maxPerHost ≤ (pool.bucket key).length := Nat.not_lt.mp hlt
    cases hbucket : pool.bucket key with
    | nil =>
      rw [hbucket] at hle
      exact .of_empty (h.count_eq_zero (Nat.le_zero.mp hle))
    | cons first rest =>
      exact .of_swapped (fun hfull => absurd hroom (Int.not_lt.mpr hfull))
        (number_fileIdle_of_cons hbucket hle filed connection)

theorem roomForOne_evictOldest_iff (h : pool.Counted config)
    (hfull : config.maxTotal ≤ pool.idleHeld) (scan : Scan κ) (filed : Instant) (key : PoolKey)
    (connection : Connection κ) :
    RoomForOne config pool ⟨connection, filed⟩
        (left ((pool.evictOldest scan).fileIdle config filed key connection)) ↔
      pool.spares config scan key = true := by
  have hlen := length_bucket_le h key
  have hnot : decide (pool.idleHeld < config.maxTotal) = false :=
    decide_eq_false (Int.not_lt.mpr hfull)
  cases holdest : pool.oldest scan with
  | none =>
    refine iff_of_true (.of_empty (count_eq_zero_of_oldest holdest)) ?_
    simp [spares, holdest]
  | some victim =>
    obtain ⟨k, index, since⟩ := victim
    obtain ⟨old, hlongest, hnumber, hother, hshorter⟩ := evictOldest_of_oldest holdest
    have hswapped (hlt : ((pool.evictOldest scan).bucket key).length < config.maxPerHost) :
        RoomForOne config pool ⟨connection, filed⟩
          (left ((pool.evictOldest scan).fileIdle config filed key connection)) := by
      refine .of_swapped (fun _ => hlongest) fun p => ?_
      have hfiled := number_fileIdle_of_lt hlt filed connection p
      have hevicted := hnumber p
      omega
    by_cases hk : k = key
    · subst hk
      refine iff_of_true (hswapped (Nat.lt_of_lt_of_le hshorter hlen)) ?_
      simp [spares, holdest]
    · have hsame := hother key (Ne.symm hk)
      by_cases hlt : (pool.bucket key).length < config.maxPerHost
      · refine iff_of_true (hswapped (by rwa [hsame])) ?_
        simp [spares, hlt]
      · -- the bucket is full, and gives up its first entry as well
        refine iff_of_false (fun hroom => ?_) (by simp [spares, hnot, hlt, holdest, hk])
        have hle : config.maxPerHost ≤ ((pool.evictOldest scan).bucket key).length := by
          rw [hsame]
          exact Nat.not_lt.mp hlt
        have hcount := hroom.count_le
        have hevicted := hnumber fun _ => true
        simp only [countP_all, List.length_singleton] at hevicted
        cases hbucket : (pool.evictOldest scan).bucket key with
        | nil =>
          rw [hbucket] at hle
          have hempty := h.count_eq_zero (Nat.le_zero.mp hle)
          rw [count] at hempty
          omega
        | cons first rest =>
          have hfiled := number_fileIdle_of_cons hbucket hle filed connection fun _ => true
          simp only [countP_all, List.length_singleton] at hfiled
          simp only [count] at hcount
          omega

end Room

section Theorem

variable [DecidableEq κ] {config : PoolConfig} {pool : Pool κ}

/-- **When a release makes room for one.** In every pool that calls lead to, for every usable
HTTP/1.1 connection and every reading of the clock at which no sweep is due. -/
theorem roomForOne_iff (h : Reached config pool) (usable : κ → Bool) (clock : Readings κ)
    (key : PoolKey) (sender : κ) (husable : usable sender = true)
    (hsweep : (clock.due - pool.lastSweep).toNat < config.idleTimeout / 4) :
    RoomForOne config pool ⟨⟨.http11, sender⟩, clock.filed⟩
        (left (pool.release config usable clock key ⟨.http11, sender⟩)) ↔
      pool.spares config clock.scan key = true := by
  have hunswept : pool.sweepIfDue config usable clock.due clock.sweep = pool := if_pos hsweep
  have hhttp2 : ¬ Protocol.http11 = .http2 := by decide
  have hrelease : pool.release config usable clock key ⟨.http11, sender⟩ =
      (if config.maxTotal ≤ pool.idleHeld then pool.evictOldest clock.scan else pool).fileIdle
        config clock.filed key ⟨.http11, sender⟩ := by
    rw [release_usable husable, hunswept, releaseSwept, if_neg hhttp2]
  rw [hrelease]
  by_cases hfull : config.maxTotal ≤ pool.idleHeld
  · rw [if_pos hfull]
    exact roomForOne_evictOldest_iff h.counted hfull clock.scan clock.filed key _
  · rw [if_neg hfull]
    have hroom : pool.idleHeld < config.maxTotal := Int.not_le.mp hfull
    refine iff_of_true (roomForOne_fileIdle h.counted hroom clock.filed key _) ?_
    simp [spares, hroom]

/-- One connection per host, two in all. -/
def tightLimits : PoolConfig := ⟨.fromSecs 90, 1, 2⟩

/-- The key of a port. -/
def portKey (port : Nat) : PoolKey := ⟨[], [], port, none, [], .http11⟩

/-- A clock that stands still during a call. -/
def still (seconds : Nat) : Readings Nat :=
  ⟨Duration.fromSecs seconds, Duration.fromSecs seconds, Duration.fromSecs seconds, .listed⟩

/-- The connection `sender` to a port is put back. -/
def returned (pool : Pool Nat) (seconds port sender : Nat) : Pool Nat :=
  left (pool.release tightLimits (fun _ => true) (still seconds) (portKey port) ⟨.http11, sender⟩)

/-- A connection to port 80, and a second later one to port 443. -/
def fullPool : Pool Nat := ((new 0).returned 0 80 0).returned 1 443 1

theorem reached_fullPool : Reached tightLimits fullPool := by
  have hone : Reached tightLimits ((new 0).returned 0 80 0) :=
    (Reached.new 0).release _ _ _ _ fun _ => rfl
  refine hone.release (fun _ => true) (still 1) (portKey 443) ⟨.http11, 1⟩ fun _ => ?_
  decide +kernel

/-- A second connection to port 80 takes the place of the first. -/
theorem roomForOne_fullPool :
    RoomForOne tightLimits fullPool ⟨⟨.http11, 2⟩, Duration.fromSecs 2⟩
      (fullPool.returned 2 80 2) :=
  (roomForOne_iff reached_fullPool (fun _ => true) (still 2) (portKey 80) 2 rfl
    (by decide +kernel)).mpr (by decide +kernel)

/-- A second connection to port 443 costs the pool both it holds. -/
theorem fullPool_shrinks :
    let after := fullPool.returned 2 443 2
    Reached tightLimits fullPool ∧
      ((still 2).due - fullPool.lastSweep).toNat < tightLimits.idleTimeout / 4 ∧
      fullPool.count = 2 ∧ after.count = 1 ∧ after.holds 0 = 0 ∧ after.holds 1 = 0 ∧
      after.holds 2 = 1 := by
  refine ⟨reached_fullPool, ?_⟩
  decide +kernel

end Theorem

end Chromulate.Http.Pool
