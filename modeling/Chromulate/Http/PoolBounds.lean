import Chromulate.Http.Pool

/-!
# The pool's counter and its caps

Over every sequence of calls the counter `idle_held` is the number of idle connections, no cap is
passed, and a connection that is handed out is the caller's alone. All of it needs both limits to be
positive, and `orderly_iff` says that nothing else is needed: with `max_per_host` zero the first
HTTP/1.1 connection that is put back makes `release` panic, and with `max_total` zero it is kept
nevertheless.

Everything is counted in one way, as the number of idle entries with a property (`number`): the
entries of one connection, or all of them.
-/

namespace Chromulate.Http.Pool

variable {κ : Type}

/-- The idle entries with a property. -/
def number (p : Idle κ → Bool) (pool : Pool κ) : Nat :=
  Table.sumOf (List.countP p) pool.idle

/-- All of them. -/
def count (pool : Pool κ) : Nat := pool.number fun _ => true

/-- The idle entries of one connection. -/
def holds [DecidableEq κ] (pool : Pool κ) (sender : κ) : Nat :=
  pool.number fun entry => entry.connection.sender = sender

/-- What the pool promises of itself. -/
structure Accounted (config : PoolConfig) (pool : Pool κ) : Prop where
  held : pool.idleHeld = pool.count
  total : pool.count ≤ config.maxTotal
  perHost : ∀ key entries, pool.idle.lookup key = some entries →
    entries.length ≤ config.maxPerHost
  multiplexed : pool.multiplexed.entries.length ≤ config.maxTotal

/-- The pools that sequences of calls lead to. A connection that is put back is the caller's, so it
is not in the pool. -/
inductive Reached [DecidableEq κ] (config : PoolConfig) : Pool κ → Prop
  | new (now : Instant) : Reached config (.new now)
  | checkout {pool : Pool κ} (usable : κ → Bool) (now : Instant) (key : PoolKey) :
      Reached config pool → Reached config (pool.checkout config usable now key).2
  | release {pool : Pool κ} (usable : κ → Bool) (clock : Readings κ) (key : PoolKey)
      (connection : Connection κ) : Reached config pool →
      (connection.protocol = .http11 → pool.holds connection.sender = 0) →
      Reached config (left (pool.release config usable clock key connection))
  | clear {pool : Pool κ} : Reached config pool → Reached config pool.clear

/-! ## Counting -/

section Counting

variable {p : Idle κ → Bool} {pool : Pool κ} {key : PoolKey} {entries : List (Idle κ)}

theorem number_replace (h : pool.idle.lookup key = some entries) (rest : List (Idle κ))
    (held : Int) :
    number p { pool with idle := pool.idle.insert key rest, idleHeld := held } + entries.countP p =
      pool.number p + rest.countP p := by
  simp only [number, Table.sumOf_insert, Table.sumOf_eq_of_lookup h]
  omega

theorem number_remove (h : pool.idle.lookup key = some entries) (held : Int) :
    number p { pool with idle := pool.idle.erase key, idleHeld := held } + entries.countP p =
      pool.number p := by
  simp only [number, Table.sumOf_eq_of_lookup h]
  omega

theorem number_add (h : pool.idle.lookup key = none) (rest : List (Idle κ)) (held : Int) :
    number p { pool with idle := pool.idle.insert key rest, idleHeld := held } =
      pool.number p + rest.countP p := by
  simp only [number, Table.sumOf_insert, Table.sumOf_erase_of_lookup_none h]
  omega

theorem countP_all (entries : List (Idle κ)) : entries.countP (fun _ => true) = entries.length := by
  simp

end Counting

/-! ## Steps that only drop entries -/

/-- The step drops entries, and keeps the counter with them. -/
structure Sheds (pool after : Pool κ) : Prop where
  number : ∀ p, after.number p ≤ pool.number p
  counted : pool.idleHeld = pool.count → after.idleHeld = after.count
  buckets : ∀ key rest, after.idle.lookup key = some rest →
    ∃ entries, pool.idle.lookup key = some entries ∧ rest.length ≤ entries.length
  multiplexed : after.multiplexed.entries.length ≤ pool.multiplexed.entries.length

namespace Sheds

variable {pool after : Pool κ} {key : PoolKey} {entries rest : List (Idle κ)}

theorem refl (pool : Pool κ) : Sheds pool pool :=
  ⟨fun _ => Nat.le_refl _, id, fun _ rest h => ⟨rest, h, Nat.le_refl _⟩, Nat.le_refl _⟩

theorem trans {last : Pool κ} (h : Sheds pool after) (h' : Sheds after last) : Sheds pool last where
  number p := (h'.number p).trans (h.number p)
  counted heq := h'.counted (h.counted heq)
  buckets key rest hrest := by
    obtain ⟨middle, hmiddle, hle⟩ := h'.buckets key rest hrest
    obtain ⟨entries, hentries, hle'⟩ := h.buckets key middle hmiddle
    exact ⟨entries, hentries, hle.trans hle'⟩
  multiplexed := h'.multiplexed.trans h.multiplexed

theorem replace (h : pool.idle.lookup key = some entries) (hsub : rest.Sublist entries) {held : Int}
    (hheld : held = pool.idleHeld - (entries.length - rest.length)) :
    Sheds pool { pool with idle := pool.idle.insert key rest, idleHeld := held } where
  number p := by
    have hnumber := number_replace (p := p) h rest held
    have hle := hsub.countP_le (p := p)
    omega
  counted heq := by
    have hcount := number_replace (p := fun _ => true) h rest held
    simp only [countP_all] at hcount
    simp only [count] at heq ⊢
    omega
  buckets k found hfound := by
    rcases Table.lookup_insert_eq_some.mp hfound with ⟨rfl, rfl⟩ | ⟨-, hold⟩
    · exact ⟨entries, h, hsub.length_le⟩
    · exact ⟨found, hold, Nat.le_refl _⟩
  multiplexed := Nat.le_refl _

theorem remove (h : pool.idle.lookup key = some entries) {held : Int}
    (hheld : held = pool.idleHeld - entries.length) :
    Sheds pool { pool with idle := pool.idle.erase key, idleHeld := held } where
  number p := by
    have hnumber := number_remove (p := p) h held
    omega
  counted heq := by
    have hcount := number_remove (p := fun _ => true) h held
    simp only [countP_all] at hcount
    simp only [count] at heq ⊢
    omega
  buckets k found hfound := ⟨found, (Table.lookup_erase_eq_some.mp hfound).2, Nat.le_refl _⟩
  multiplexed := Nat.le_refl _

theorem multiplexed_of_le {table : Table PoolKey (Connection κ)}
    (h : table.entries.length ≤ pool.multiplexed.entries.length) :
    Sheds pool { pool with multiplexed := table } :=
  { refl pool with multiplexed := h }

end Sheds

theorem Accounted.shed {config : PoolConfig} {pool after : Pool κ} (h : pool.Accounted config)
    (hsheds : Sheds pool after) : after.Accounted config where
  held := hsheds.counted h.held
  total := (hsheds.number _).trans h.total
  perHost key rest hrest := by
    obtain ⟨entries, hentries, hle⟩ := hsheds.buckets key rest hrest
    exact hle.trans (h.perHost key entries hentries)
  multiplexed := hsheds.multiplexed.trans h.multiplexed

/-! ## Checking out -/

section Checkout

variable {config : PoolConfig} {usable : κ → Bool} {now : Instant} {key : PoolKey}

theorem sheds_checkoutIdle (pool : Pool κ) :
    Sheds pool (pool.checkoutIdle config usable now key).2 := by
  unfold checkoutIdle
  cases hbucket : pool.idle.lookup key with
  | none => exact Sheds.refl pool
  | some entries =>
    obtain ⟨htaken, hnone⟩ := popFresh_suffix config usable now entries.reverse
    simp only
    split
    · rename_i connection hfound
      obtain ⟨entry, -, hsuffix⟩ := htaken connection hfound
      have hsub := ((List.suffix_cons _ _).trans hsuffix).sublist.reverse
      rw [List.reverse_reverse] at hsub
      exact Sheds.replace hbucket hsub (by rw [List.length_reverse])
    · rename_i hfound
      exact Sheds.remove hbucket (by rw [hnone hfound]; simp)

/-- What the idle part hands out has left the pool. -/
theorem number_checkoutIdle {pool : Pool κ} {connection : Connection κ}
    (h : (pool.checkoutIdle config usable now key).1 = some connection) :
    ∃ entry : Idle κ, entry.connection = connection ∧ ∀ p : Idle κ → Bool, p entry = true →
      (pool.checkoutIdle config usable now key).2.number p + 1 ≤ pool.number p := by
  unfold checkoutIdle at h ⊢
  cases hbucket : pool.idle.lookup key with
  | none => simp [hbucket] at h
  | some entries =>
    have htaken := (popFresh_suffix config usable now entries.reverse).1
    simp only [hbucket] at h ⊢
    split at h
    · rename_i found hfound
      cases h
      obtain ⟨entry, heq, hsuffix⟩ := htaken _ hfound
      refine ⟨entry, heq, fun p hp => ?_⟩
      have hle := hsuffix.sublist.countP_le (p := p)
      rw [List.countP_cons_of_pos hp, List.countP_reverse] at hle
      simp only
      have hnumber := number_replace (p := p) hbucket
        (popFresh config usable now entries.reverse).2.reverse
        (pool.idleHeld -
          (entries.length - (popFresh config usable now entries.reverse).2.length))
      rw [List.countP_reverse] at hnumber
      omega
    · cases h

theorem sheds_checkout (config : PoolConfig) (usable : κ → Bool) (now : Instant) (key : PoolKey)
    (pool : Pool κ) : Sheds pool (pool.checkout config usable now key).2 := by
  unfold checkout
  split
  · split_ifs
    · exact Sheds.refl pool
    · exact sheds_checkoutIdle pool
    · refine Sheds.trans (Sheds.multiplexed_of_le ?_) (sheds_checkoutIdle _)
      exact (List.kerase_sublist key pool.multiplexed.entries).length_le
  · exact sheds_checkoutIdle pool

/-- **An HTTP/1.1 connection that is handed out has left the pool.** -/
theorem number_checkout {pool : Pool κ} {connection : Connection κ}
    (h : (pool.checkout config usable now key).1 = some connection)
    (hprotocol : connection.protocol = .http11) :
    ∃ entry : Idle κ, entry.connection = connection ∧ ∀ p : Idle κ → Bool, p entry = true →
      (pool.checkout config usable now key).2.number p + 1 ≤ pool.number p := by
  unfold checkout at h ⊢
  cases hshared : pool.multiplexed.lookup key with
  | none =>
    simp only [hshared] at h ⊢
    exact number_checkoutIdle h
  | some shared =>
    simp only [hshared] at h ⊢
    split_ifs at h ⊢ with husable hhttp2
    · -- a shared connection is an HTTP/2 one
      cases h
      rw [hprotocol] at hhttp2
      cases hhttp2
    · exact number_checkoutIdle h
    · exact number_checkoutIdle h

end Checkout

/-! ## Putting back -/

section Release

variable {config : PoolConfig} {usable : κ → Bool} {key : PoolKey} {pool : Pool κ}

theorem sheds_sweepIfDue (now later : Instant) (pool : Pool κ) :
    Sheds pool (pool.sweepIfDue config usable now later) := by
  unfold sweepIfDue
  split_ifs
  · exact Sheds.refl pool
  · constructor
    · intro p
      exact Table.sumOf_retain_mapValues_le
        (fun entries => (List.filter_sublist (l := entries)).countP_le) _ _
    · intro _
      simp [evictExpired, count, number, Table.sumOf]
    · intro key rest hrest
      simp only [evictExpired, Table.lookup_retain, Table.lookup_mapValues,
        Option.filter_eq_some_iff, Option.map_eq_some_iff] at hrest
      obtain ⟨⟨entries, hentries, rfl⟩, -⟩ := hrest
      exact ⟨entries, hentries, List.length_filter_le _ _⟩
    · exact List.length_filter_le _ _

/-- An entry is idle in the pool. -/
def Contains (pool : Pool κ) (entry : Idle κ) : Prop :=
  ∃ key entries, pool.idle.lookup key = some entries ∧ entry ∈ entries

/-- No entry has been idle longer. -/
structure LongestIdle (pool : Pool κ) (entry : Idle κ) : Prop where
  contained : pool.Contains entry
  le : ∀ other, pool.Contains other → entry.since ≤ other.since

/-- A bucket that is not empty has an oldest entry, and nothing older is found in the pool. -/
theorem exists_oldest_le (scan : Scan κ) (h : pool.idle.lookup key = some entries)
    (hne : entries ≠ []) :
    ∃ victim first, pool.oldest scan = some victim ∧
      Select.minByKey (fun entry => entry.1.since) entries.zipIdx = some first ∧
        victim.2.2 ≤ first.1.since := by
  have hzip : entries.zipIdx ≠ [] := by simpa using hne
  obtain ⟨first, hfirst⟩ := Select.exists_minByKey (fun entry => entry.1.since) hzip
  have hcandidate := List.mem_filterMap.mpr (⟨⟨key, entries⟩, Table.Scan.mem_run.mpr h,
      by rw [hfirst]; rfl⟩ :
    ∃ b ∈ scan.run pool.idle, (Select.minByKey (fun entry => entry.1.since) b.2.zipIdx).map
      (fun entry => (b.1, entry.2, entry.1.since)) = some (key, first.2, first.1.since))
  obtain ⟨victim, hvictim⟩ :=
    Select.exists_minByKey (fun candidate => candidate.2.2) (List.ne_nil_of_mem hcandidate)
  exact ⟨victim, first, hvictim, hfirst, Select.le_of_minByKey hvictim hcandidate⟩

/-- The entry `evict_oldest` finds has been idle longest. -/
theorem longestIdle_of_oldest {scan : Scan κ} {index : Nat} {since : Instant}
    (h : pool.oldest scan = some (key, index, since)) :
    ∃ entries, ∃ hindex : index < entries.length, pool.idle.lookup key = some entries ∧
      pool.LongestIdle (entries.get ⟨index, hindex⟩) := by
  obtain ⟨bucket, hbucket, hmap⟩ := List.mem_filterMap.mp (Select.mem_of_minByKey h)
  obtain ⟨entry, hentry, heq⟩ := Option.map_eq_some_iff.mp hmap
  cases heq
  have hlookup : pool.idle.lookup bucket.1 = some bucket.2 := Table.Scan.mem_run.mp hbucket
  obtain ⟨hindex, hget⟩ := List.mem_zipIdx' (Select.mem_of_minByKey hentry)
  refine ⟨bucket.2, hindex, hlookup, ⟨bucket.1, bucket.2, hlookup, List.get_mem _ _⟩, ?_⟩
  intro other ⟨k, entries, hentries, hother⟩
  -- the other entry is not older than the oldest of its bucket, nor that than the oldest of all
  obtain ⟨victim, first, hvictim, hfirst, hleast⟩ :=
    exists_oldest_le scan hentries (List.ne_nil_of_mem hother)
  cases h.symm.trans hvictim
  obtain ⟨i, hi⟩ := List.getElem?_of_mem hother
  have hle := Select.le_of_minByKey hfirst (List.mk_mem_zipIdx_iff_getElem?.mpr hi)
  rw [List.get_eq_getElem, ← hget]
  exact Int.le_trans hleast hle

theorem count_eq_zero_of_oldest {scan : Scan κ} (h : pool.oldest scan = none) :
    pool.count = 0 := by
  apply List.sum_eq_zero
  intro n hn
  obtain ⟨entries, hentries, rfl⟩ := List.mem_map.mp hn
  obtain ⟨bucket, hbucket, rfl⟩ := List.mem_map.mp hentries
  have hnil : bucket.2 = [] := by
    by_contra hne
    obtain ⟨victim, -, hvictim, -⟩ := exists_oldest_le scan (AList.mem_lookup_iff.mpr hbucket) hne
    cases h.symm.trans hvictim
  rw [hnil]
  rfl

theorem evictOldest_spec (scan : Scan κ) (pool : Pool κ) :
    Sheds pool (pool.evictOldest scan) ∧ (pool.evictOldest scan).count = pool.count - 1 := by
  unfold evictOldest
  cases holdest : pool.oldest scan with
  | none =>
    refine ⟨Sheds.refl pool, ?_⟩
    have := count_eq_zero_of_oldest holdest
    simp only
    omega
  | some victim =>
    obtain ⟨key, index, since⟩ := victim
    obtain ⟨entries, hindex, hentries, -⟩ := longestIdle_of_oldest holdest
    have hlen := List.length_eraseIdx_add_one hindex
    simp only [hentries]
    split_ifs with hempty
    · have hnil := List.isEmpty_iff.mp hempty
      rw [hnil, List.length_nil] at hlen
      refine ⟨Sheds.remove hentries (by omega), ?_⟩
      have hcount := number_remove (p := fun _ => true) hentries (pool.idleHeld - 1)
      rw [countP_all] at hcount
      simp only [count]
      omega
    · refine ⟨Sheds.replace hentries (List.eraseIdx_sublist _ _) (by omega), ?_⟩
      have hcount := number_replace (p := fun _ => true) hentries (entries.eraseIdx index)
        (pool.idleHeld - 1)
      rw [countP_all, countP_all] at hcount
      simp only [count]
      omega

/-- A bucket with one entry more at its end, and perhaps one fewer at its front. -/
theorem Accounted.replaceBucket (h : pool.Accounted config) {held : Int} {rest : List (Idle κ)}
    (hlen : rest.length ≤ config.maxPerHost)
    (hheld : held = count { pool with idle := pool.idle.insert key rest, idleHeld := held })
    (htotal : count { pool with idle := pool.idle.insert key rest, idleHeld := held } ≤
      config.maxTotal) :
    Accounted config { pool with idle := pool.idle.insert key rest, idleHeld := held } where
  held := hheld
  total := htotal
  perHost k found hfound := by
    rcases Table.lookup_insert_eq_some.mp hfound with ⟨rfl, rfl⟩ | ⟨-, hold⟩
    · exact hlen
    · exact h.perHost k found hold
  multiplexed := h.multiplexed

theorem number_getD (pool : Pool κ) (key : PoolKey) (p : Idle κ → Bool) (rest : List (Idle κ))
    (held : Int) :
    number p { pool with idle := pool.idle.insert key rest, idleHeld := held } +
      ((pool.idle.lookup key).getD []).countP p = pool.number p + rest.countP p := by
  cases h : pool.idle.lookup key with
  | none => simpa using number_add h rest held
  | some entries => exact number_replace h rest held

/-- **Filing an idle connection.** With room for it and a limit that is not zero, the entry is
filed and counted, and nothing else is added. -/
theorem fileIdle_spec (h : pool.Accounted config) (hhost : 0 < config.maxPerHost)
    (hroom : pool.count < config.maxTotal) (filed : Instant) (key : PoolKey)
    (connection : Connection κ) :
    ∃ after, pool.fileIdle config filed key connection = .ok after ∧ after.Accounted config ∧
      1 ≤ after.idleHeld ∧
      ∀ p, after.number p ≤ pool.number p + [(⟨connection, filed⟩ : Idle κ)].countP p := by
  have hbucket : ((pool.idle.lookup key).getD []).length ≤ config.maxPerHost := by
    cases hlookup : pool.idle.lookup key with
    | none => simp
    | some entries => exact h.perHost key entries hlookup
  have hheld := h.held
  have hnumber (p : Idle κ → Bool) (rest : List (Idle κ)) (held : Int) :=
    number_getD pool key p rest held
  unfold Pool.fileIdle
  generalize (pool.idle.lookup key).getD [] = entries at hbucket hnumber
  simp only
  split_ifs with hfull
  · cases entries with
    | nil =>
      rw [List.length_nil] at hfull
      omega
    | cons first rest =>
      have hcount := hnumber (fun _ => true) (rest ++ [⟨connection, filed⟩]) pool.idleHeld
      simp only [countP_all, List.length_cons, List.length_append, List.length_nil] at hcount
      have hsame : count { pool with
          idle := pool.idle.insert key (rest ++ [⟨connection, filed⟩]) } = pool.count := by
        simp only [count]
        omega
      have hbound : 1 ≤ pool.count := by
        have hwithout := hnumber (fun _ => true) [] pool.idleHeld
        simp only [countP_all, List.length_cons, List.length_nil] at hwithout
        simp only [count]
        omega
      refine ⟨_, rfl, h.replaceBucket (by simpa using hbucket) ?_ ?_, ?_, fun p => ?_⟩
      · rw [hsame, hheld]
      · rw [hsame]
        exact h.total
      · simp only
        omega
      · have hp := hnumber p (rest ++ [⟨connection, filed⟩]) pool.idleHeld
        rw [List.countP_append, List.countP_cons] at hp
        omega
  · have hcount := hnumber (fun _ => true) (entries ++ [⟨connection, filed⟩]) (pool.idleHeld + 1)
    simp only [countP_all, List.length_cons, List.length_append, List.length_nil] at hcount
    have hmore : count { pool with
        idle := pool.idle.insert key (entries ++ [⟨connection, filed⟩]),
        idleHeld := pool.idleHeld + 1 } = pool.count + 1 := by
      simp only [count]
      omega
    refine ⟨_, rfl, h.replaceBucket ?_ ?_ ?_, ?_, fun p => ?_⟩
    · rw [List.length_append, List.length_singleton]
      omega
    · rw [hmore]
      omega
    · rw [hmore]
      omega
    · simp only
      omega
    · have hp := hnumber p (entries ++ [⟨connection, filed⟩]) (pool.idleHeld + 1)
      rw [List.countP_append] at hp
      omega

theorem Accounted.releaseMultiplexed (h : pool.Accounted config) (connection : Connection κ) :
    (pool.releaseMultiplexed config usable key connection).Accounted config ∧
      ∀ p, (pool.releaseMultiplexed config usable key connection).number p = pool.number p := by
  have hinsert (hle : (pool.multiplexed.insert key connection).entries.length ≤ config.maxTotal) :
      Accounted config { pool with multiplexed := pool.multiplexed.insert key connection } :=
    { h with multiplexed := hle }
  unfold Pool.releaseMultiplexed
  cases hlookup : pool.multiplexed.lookup key with
  | none =>
    simp only
    split_ifs with hfull
    · exact ⟨h, fun _ => rfl⟩
    · refine ⟨hinsert ?_, fun _ => rfl⟩
      rw [AList.entries_insert, List.length_cons]
      have hle := (List.kerase_sublist key pool.multiplexed.entries).length_le
      omega
  | some existing =>
    simp only
    split_ifs
    · exact ⟨h, fun _ => rfl⟩
    · refine ⟨hinsert ?_, fun _ => rfl⟩
      have hperm := (Table.entries_perm hlookup).length_eq
      rw [List.length_cons] at hperm
      rw [AList.entries_insert, List.length_cons]
      have htotal := h.multiplexed
      rw [hperm] at htotal
      exact htotal

theorem makeRoom_spec (h : pool.Accounted config) (htotal : 0 < config.maxTotal)
    (scan : Scan κ) :
    (if config.maxTotal ≤ pool.idleHeld then pool.evictOldest scan else pool).count <
        config.maxTotal ∧
      Sheds pool (if config.maxTotal ≤ pool.idleHeld then pool.evictOldest scan else pool) := by
  have hheld := h.held
  have hle := h.total
  split_ifs with hfull
  · obtain ⟨hsheds, hcount⟩ := evictOldest_spec scan pool
    refine ⟨?_, hsheds⟩
    omega
  · refine ⟨?_, Sheds.refl pool⟩
    omega

/-- The part of `release` after the sweep. -/
def releaseSwept (config : PoolConfig) (usable : κ → Bool) (clock : Readings κ) (key : PoolKey)
    (connection : Connection κ) (pool : Pool κ) : Except (Pool κ) (Pool κ) :=
  if connection.protocol = .http2 then .ok (pool.releaseMultiplexed config usable key connection)
  else
    (if config.maxTotal ≤ pool.idleHeld then pool.evictOldest clock.scan else pool).fileIdle config
      clock.filed key connection

theorem release_usable {usable : κ → Bool} {connection : Connection κ}
    (h : usable connection.sender = true) (clock : Readings κ) (key : PoolKey) :
    pool.release config usable clock key connection =
      releaseSwept config usable clock key connection
        (pool.sweepIfDue config usable clock.due clock.sweep) := by
  simp [Pool.release, Pool.releaseSwept, h]

/-- **Putting a connection back.** -/
theorem release_spec (h : pool.Accounted config) (hhost : 0 < config.maxPerHost)
    (htotal : 0 < config.maxTotal) (usable : κ → Bool) (clock : Readings κ) (key : PoolKey)
    (connection : Connection κ) :
    ∃ after, pool.release config usable clock key connection = .ok after ∧
      after.Accounted config ∧
      (usable connection.sender → connection.protocol = .http11 → 1 ≤ after.idleHeld) ∧
      ∀ p, after.number p ≤ pool.number p +
        if connection.protocol = .http11 then [(⟨connection, clock.filed⟩ : Idle κ)].countP p
        else 0 := by
  by_cases husable : usable connection.sender
  case neg =>
    refine ⟨pool, by simp [Pool.release, husable], h, fun hyes => absurd hyes husable, fun p => ?_⟩
    exact Nat.le_add_right _ _
  have hsweep : Sheds pool (pool.sweepIfDue config usable clock.due clock.sweep) :=
    sheds_sweepIfDue clock.due clock.sweep pool
  rw [release_usable husable]
  generalize pool.sweepIfDue config usable clock.due clock.sweep = swept at hsweep
  have hswept := h.shed hsweep
  unfold releaseSwept
  by_cases hhttp2 : connection.protocol = .http2
  · rw [if_pos hhttp2]
    obtain ⟨haccounted, hnumber⟩ := hswept.releaseMultiplexed connection
    refine ⟨_, rfl, haccounted, fun _ hhttp11 => ?_, fun p => ?_⟩
    · rw [hhttp2] at hhttp11
      cases hhttp11
    · rw [hnumber p]
      exact (hsweep.number p).trans (Nat.le_add_right _ _)
  · have hhttp11 : connection.protocol = .http11 := by
      cases hprotocol : connection.protocol with
      | http11 => rfl
      | http2 => exact absurd hprotocol hhttp2
    rw [if_neg hhttp2]
    obtain ⟨hroom, hmade⟩ := makeRoom_spec hswept htotal clock.scan
    generalize (if config.maxTotal ≤ swept.idleHeld then swept.evictOldest clock.scan else swept) =
      ready at hroom hmade
    obtain ⟨after, hafter, haccounted, hheld, hnumber⟩ :=
      fileIdle_spec (hswept.shed hmade) hhost hroom clock.filed key connection
    refine ⟨after, hafter, haccounted, fun _ _ => hheld, fun p => ?_⟩
    rw [if_pos hhttp11]
    have hle := (hsweep.trans hmade).number p
    have hle' := hnumber p
    omega

theorem release_new (config : PoolConfig) (key : PoolKey) (sender : κ) :
    (new 0 : Pool κ).release config (fun _ => true) ⟨0, 0, 0, .listed⟩ key ⟨.http11, sender⟩ =
      (new 0 : Pool κ).fileIdle config 0 key ⟨.http11, sender⟩ := by
  have hsweep : (new 0 : Pool κ).sweepIfDue config (fun _ => true) 0 0 = new 0 := by
    unfold sweepIfDue
    split_ifs <;> rfl
  have hroom : (if (config.maxTotal : Int) ≤ (new 0 : Pool κ).idleHeld then
      (new 0 : Pool κ).evictOldest .listed else new 0) = new 0 := by
    split_ifs <;> rfl
  simp only [Pool.release, hsweep, hroom]
  rfl

end Release

/-! ## Whole runs -/

theorem accounted_new (config : PoolConfig) (now : Instant) :
    (new now : Pool κ).Accounted config where
  held := rfl
  total := Nat.zero_le _
  perHost key entries h := by simp [new] at h
  multiplexed := Nat.zero_le _

theorem Accounted.clear {config : PoolConfig} {pool : Pool κ} (h : pool.Accounted config) :
    pool.clear.Accounted config :=
  h.shed ⟨fun _ => Nat.zero_le _, fun _ => rfl, fun key rest hrest => by simp [Pool.clear] at hrest,
    Nat.zero_le _⟩

section Runs

variable [DecidableEq κ] {config : PoolConfig} {pool : Pool κ}

/-- What holds of a pool between two calls, and of the next call. -/
structure Orderly (config : PoolConfig) (pool : Pool κ) : Prop where
  accounted : pool.Accounted config
  /-- `release` does not panic. Counting the new entry is the last thing it does, so the counter
  was not below zero before it. -/
  release : ∀ usable clock key connection,
    ∃ after, pool.release config usable clock key connection = .ok after ∧
      (usable connection.sender → connection.protocol = .http11 → 1 ≤ after.idleHeld)
  /-- A connection that is handed out is in the pool no longer. -/
  checkout : ∀ usable now key connection,
    (pool.checkout config usable now key).1 = some connection → connection.protocol = .http11 →
      (pool.checkout config usable now key).2.holds connection.sender = 0

/-- No connection is in the pool twice. -/
def Apart (pool : Pool κ) : Prop := ∀ sender, pool.holds sender ≤ 1

theorem Reached.accounted (hhost : 0 < config.maxPerHost) (htotal : 0 < config.maxTotal)
    (h : Reached config pool) : pool.Accounted config ∧ pool.Apart := by
  induction h with
  | new now => exact ⟨accounted_new config now, fun _ => Nat.zero_le _⟩
  | checkout usable now key _ ih =>
    have hsheds := sheds_checkout config usable now key
    exact ⟨ih.1.shed (hsheds _), fun sender => ((hsheds _).number _).trans (ih.2 sender)⟩
  | release usable clock key connection _ howned ih =>
    obtain ⟨after, hafter, haccounted, -, hnumber⟩ :=
      release_spec ih.1 hhost htotal usable clock key connection
    rw [hafter]
    refine ⟨haccounted, fun sender => ?_⟩
    have hle := hnumber fun entry => entry.connection.sender = sender
    have hone := ih.2 sender
    simp only [holds] at howned hone ⊢
    rw [left]
    split_ifs at hle with hhttp11
    · have hnone := howned hhttp11
      by_cases hsender : connection.sender = sender
      · subst hsender
        simp only [List.countP_cons, List.countP_nil, decide_true, if_true] at hle
        omega
      · simp only [List.countP_cons, List.countP_nil, hsender, decide_false, if_neg,
          Bool.false_eq_true, not_false_eq_true] at hle
        omega
    · omega
  | clear _ ih => exact ⟨ih.1.clear, fun _ => Nat.zero_le _⟩

/-- **The pool keeps its books.** The limits that are not zero are exactly those under which, over
every sequence of calls, the counter is right, no cap is passed, nothing panics and a connection
that is handed out is the caller's alone. -/
theorem orderly_iff [Inhabited κ] (config : PoolConfig) :
    (∀ pool : Pool κ, Reached config pool → pool.Orderly config) ↔
      0 < config.maxPerHost ∧ 0 < config.maxTotal := by
  constructor
  · intro horderly
    let key : PoolKey := ⟨[], [], 0, none, [], .http11⟩
    obtain ⟨after, hafter, -⟩ :=
      (horderly _ (.new 0)).release (fun _ => true) ⟨0, 0, 0, .listed⟩ key ⟨.http11, default⟩
    -- the state after the first connection is put back, whatever the limits are
    have hreached : Reached config after := by
      have hnew : Reached config (new 0 : Pool κ) := .new 0
      have := hnew.release (fun _ => true) ⟨0, 0, 0, .listed⟩ key ⟨.http11, default⟩ fun _ => rfl
      rwa [hafter] at this
    rw [release_new, fileIdle] at hafter
    by_cases hhost : config.maxPerHost = 0
    · simp [hhost, new] at hafter
    · refine ⟨Nat.pos_of_ne_zero hhost, ?_⟩
      have htotal := (horderly after hreached).accounted.total
      have hone : after.count = 1 := by
        simp [new, hhost] at hafter
        rw [← hafter]
        rfl
      omega
  · rintro ⟨hhost, htotal⟩ pool hreached
    obtain ⟨haccounted, hapart⟩ := hreached.accounted hhost htotal
    refine ⟨haccounted, fun usable clock key connection => ?_,
      fun usable now key connection hout hhttp11 => ?_⟩
    · obtain ⟨after, hafter, -, hheld, -⟩ :=
        release_spec haccounted hhost htotal usable clock key connection
      exact ⟨after, hafter, hheld⟩
    · obtain ⟨entry, rfl, hnumber⟩ := number_checkout hout hhttp11
      have hle := hnumber (fun other => other.connection.sender = entry.connection.sender)
        (decide_eq_true rfl)
      have hone := hapart entry.connection.sender
      simp only [holds] at hone ⊢
      omega

/-- The limits of `PoolConfig::default`, and a pool that holds a connection. -/
theorem orderly_default : Orderly ⟨.fromSecs 90, 6, 100⟩
    (left ((new 0 : Pool Nat).release ⟨.fromSecs 90, 6, 100⟩ (fun _ => true) ⟨0, 0, 0, .listed⟩
      ⟨[], [], 443, none, [], .http11⟩ ⟨.http11, 0⟩)) :=
  (orderly_iff _).mpr ⟨by decide, by decide⟩ _ ((Reached.new 0).release _ _ _ _ fun _ => rfl)

/-- With no connection allowed per host the first one that is put back makes `release` panic; with
none allowed at all it is kept. -/
theorem zero_limits_break :
    (∃ after, (new 0 : Pool Nat).release ⟨90, 0, 100⟩ (fun _ => true) ⟨0, 0, 0, .listed⟩
      ⟨[], [], 443, none, [], .http11⟩ ⟨.http11, 0⟩ = .error after) ∧
    ∃ after, (new 0 : Pool Nat).release ⟨90, 6, 0⟩ (fun _ => true) ⟨0, 0, 0, .listed⟩
      ⟨[], [], 443, none, [], .http11⟩ ⟨.http11, 0⟩ = .ok after ∧ after.count = 1 := by
  constructor
  · exact ⟨_, release_new _ _ _⟩
  · exact ⟨_, release_new _ _ _, rfl⟩

end Runs

end Chromulate.Http.Pool
