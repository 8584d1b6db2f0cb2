import Chromulate.Cache.Entry
import Chromulate.Lib.Table

/-!
# The in-memory store

`chromulate-cache/src/storage.rs`: records under keys, split over shards by the hash of the
key, each shard with its share of the byte budget and purged of its least recently used records
when it outgrows it. The hash and the sizes of the structures belong to the process, so they
are parameters.

The rest of the development sees the store through `variantsAt`: **a read changes nothing**
(`variantsAt_get`), **a removal clears one key** (`variantsAt_remove`), and **a write may drop
anything and add one entry** (`mem_variantsAt_put`).
-/

namespace Chromulate.Cache

/-- What the process decides: the hash of its keys and the sizes of its structures. -/
structure Process where
  hash : CacheKey → Nat
  layout : Layout

structure MemoryLimits where
  maxBytes : Nat
  shards : Nat
  deriving DecidableEq

namespace MemoryLimits

/-- `MemoryLimits::default`: thirty-two megabytes across sixteen shards. -/
def default : MemoryLimits := ⟨32 * 1024 * 1024, 16⟩

def perShard (limits : MemoryLimits) : Nat := max (limits.maxBytes / max limits.shards 1) 1

/-- `MemoryLimits::purge_target`: seven eighths of the share. -/
def purgeTarget (limits : MemoryLimits) : Nat := limits.perShard - limits.perShard / 8

end MemoryLimits

/-- `Record`: the variants under one key, newest last. -/
structure Record where
  variants : List CacheEntry
  bytes : Nat
  lastUsed : Nat

/-- `merge_variants`: the entry supersedes the variant selected by the same values. -/
def mergeVariants (existing : List CacheEntry) (entry : CacheEntry) : List CacheEntry :=
  (existing.filter fun stored => stored.selector ≠ entry.selector) ++ [entry]

structure Shard where
  records : Table CacheKey Record
  bytes : Nat

namespace Shard

def empty : Shard := ⟨∅, 0⟩

/-- The loop of `purge`: the stamp up to which records go, in order of last use. -/
def cutoff (target : Nat) : Nat → Nat → List (Nat × Nat) → Nat
  | _, cut, [] => cut
  | remaining, cut, (lastUsed, bytes) :: rest =>
    if remaining ≤ target then cut
    else cutoff target (remaining - min bytes remaining) lastUsed rest

/-- The last use and the size of every record, least recently used first. -/
def ages (shard : Shard) : List (Nat × Nat) :=
  (shard.records.values.map fun record => (record.lastUsed, record.bytes)).insertionSort
    fun a b => a.1 ≤ b.1

/-- `MemoryStore::purge`, of one shard. -/
def purge (limits : MemoryLimits) (shard : Shard) : Shard :=
  if shard.bytes ≤ limits.perShard then shard
  else
    let cut := cutoff limits.purgeTarget shard.bytes 0 shard.ages
    let records := shard.records.retain fun _ record => cut < record.lastUsed
    ⟨records, records.sumOf Record.bytes⟩

/-- The variants under a key. -/
def variantsAt (shard : Shard) (key : CacheKey) : List CacheEntry :=
  match shard.records.lookup key with
  | some record => record.variants
  | none => []

/-- The bytes charged for a key. -/
def bytesAt (shard : Shard) (key : CacheKey) : Nat :=
  match shard.records.lookup key with
  | some record => record.bytes
  | none => 0

/-- The critical section of `get`: a record that is read is used now. -/
def touch (tick : Nat) (key : CacheKey) (shard : Shard) : Shard :=
  match shard.records.lookup key with
  | some record =>
    { shard with records := shard.records.insert key { record with lastUsed := tick } }
  | none => shard

/-- The critical section of `remove`. -/
def remove (key : CacheKey) (shard : Shard) : Shard :=
  match shard.records.lookup key with
  | some record => ⟨shard.records.erase key, shard.bytes - min record.bytes shard.bytes⟩
  | none => shard

/-- The size the record of a key would have with an entry merged in. -/
def mergedSize (layout : Layout) (key : CacheKey) (entry : CacheEntry) (shard : Shard) : Nat :=
  key.size layout + ((mergeVariants (shard.variantsAt key) entry).map (·.size layout)).sum

/-- The critical section of `put` up to the purge, for a record that fits. -/
def insert (layout : Layout) (tick : Nat) (key : CacheKey) (entry : CacheEntry) (shard : Shard) :
    Shard :=
  let bytes := shard.mergedSize layout key entry
  { records := shard.records.insert key ⟨mergeVariants (shard.variantsAt key) entry, bytes, tick⟩
    bytes := shard.bytes + bytes - min (shard.bytesAt key) shard.bytes }

end Shard

/-- `MemoryStore`, which never has fewer shards than one. -/
structure MemoryStore where
  shards : List Shard
  pos : 0 < shards.length
  limits : MemoryLimits
  tick : Nat
  evictions : Nat
  purgeScans : Nat

namespace MemoryStore

def withLimits (limits : MemoryLimits) : MemoryStore where
  shards := List.replicate (max limits.shards 1) Shard.empty
  pos := by simp
  limits := { limits with shards := max limits.shards 1 }
  tick := 0
  evictions := 0
  purgeScans := 0

variable (process : Process)

/-- The shard `shard_of` picks. -/
def shardIndex (store : MemoryStore) (key : CacheKey) : Fin store.shards.length :=
  ⟨process.hash key % store.shards.length, Nat.mod_lt _ store.pos⟩

def shardOf (store : MemoryStore) (key : CacheKey) : Shard :=
  store.shards.get (store.shardIndex process key)

/-- Put a shard back in place of the one `shard_of` picks. -/
def setShard (store : MemoryStore) (key : CacheKey) (shard : Shard) : MemoryStore :=
  { store with
    shards := store.shards.set (store.shardIndex process key) shard
    pos := by simpa using store.pos }

/-- `MemoryStore::next_tick`, saturating. -/
def nextTick (store : MemoryStore) : Nat := min (store.tick + 1) u64Max

def draw (store : MemoryStore) : MemoryStore := { store with tick := store.nextTick }

/-- `get` once it has its tick. -/
def getAt (tick : Nat) (key : CacheKey) (store : MemoryStore) : MemoryStore :=
  store.setShard process key ((store.shardOf process key).touch tick key)

def get (key : CacheKey) (store : MemoryStore) : List CacheEntry × MemoryStore :=
  ((store.shardOf process key).variantsAt key, store.draw.getAt process store.nextTick key)

/-- `put` once it has its tick: a record that can never fit is refused, and takes the copy it
supersedes with it. -/
def putAt (tick : Nat) (key : CacheKey) (entry : CacheEntry) (store : MemoryStore) : MemoryStore :=
  let shard := store.shardOf process key
  if store.limits.perShard < shard.mergedSize process.layout key entry then
    store.setShard process key (shard.remove key)
  else
    let inserted := shard.insert process.layout tick key entry
    let purged := inserted.purge store.limits
    let scanned := if inserted.bytes ≤ store.limits.perShard then 0 else inserted.ages.length
    let evicted := inserted.records.entries.length - purged.records.entries.length
    { store.setShard process key purged with
      evictions := (store.evictions + evicted) % 2 ^ 64
      purgeScans := (store.purgeScans + scanned) % 2 ^ 64 }

def put (key : CacheKey) (entry : CacheEntry) (store : MemoryStore) : MemoryStore :=
  store.draw.putAt process store.nextTick key entry

def remove (key : CacheKey) (store : MemoryStore) : MemoryStore :=
  store.setShard process key ((store.shardOf process key).remove key)

/-- The variants stored under a key. -/
def variantsAt (store : MemoryStore) (key : CacheKey) : List CacheEntry :=
  (store.shardOf process key).variantsAt key

end MemoryStore

/-! ## What each operation does to the variants -/

namespace Shard

variable (shard : Shard) (key k : CacheKey)

theorem variantsAt_touch (tick : Nat) :
    (shard.touch tick key).variantsAt k = shard.variantsAt k := by
  unfold touch
  split
  · rename_i record hrecord
    by_cases hk : k = key
    · subst hk
      simp [variantsAt, hrecord, AList.lookup_insert]
    · simp [variantsAt, AList.lookup_insert_ne hk]
  · rfl

theorem variantsAt_remove :
    (shard.remove key).variantsAt k = if k = key then [] else shard.variantsAt k := by
  unfold remove
  by_cases hk : k = key
  · subst hk
    split
    · simp [variantsAt, AList.lookup_erase]
    · rename_i hnone
      simp [variantsAt, hnone]
  · split
    · simp [variantsAt, hk, AList.lookup_erase_ne hk]
    · simp [hk]

theorem variantsAt_purge_subset (limits : MemoryLimits) :
    (shard.purge limits).variantsAt k ⊆ shard.variantsAt k := by
  unfold purge
  split
  · exact List.Subset.refl _
  · unfold variantsAt
    rw [Table.lookup_retain]
    cases shard.records.lookup k with
    | none => simp
    | some record =>
      rw [Option.filter_some]
      split_ifs <;> simp

theorem variantsAt_insert (layout : Layout) (tick : Nat) (entry : CacheEntry) :
    (shard.insert layout tick key entry).variantsAt k =
      if k = key then mergeVariants (shard.variantsAt key) entry else shard.variantsAt k := by
  by_cases hk : k = key
  · subst hk
    simp [insert, variantsAt, AList.lookup_insert]
  · simp [insert, variantsAt, hk, AList.lookup_insert_ne hk]

end Shard

theorem mem_mergeVariants {existing : List CacheEntry} {entry e : CacheEntry}
    (h : e ∈ mergeVariants existing entry) : e ∈ existing ∨ e = entry := by
  rcases List.mem_append.mp h with h | h
  · exact Or.inl (List.mem_of_mem_filter h)
  · exact Or.inr (List.mem_singleton.mp h)

namespace MemoryStore

variable {process : Process} {store : MemoryStore} {key k : CacheKey}

theorem shardOf_setShard (shard : Shard) :
    (store.setShard process key shard).shardOf process k =
      if store.shardIndex process k = store.shardIndex process key then shard
      else store.shardOf process k := by
  have hidx : ((store.setShard process key shard).shardIndex process k).val =
      (store.shardIndex process k).val := by
    simp [shardIndex, setShard]
  unfold shardOf
  rw [List.get_eq_getElem, List.get_eq_getElem]
  simp only [hidx]
  simp only [setShard, List.getElem_set, Fin.ext_iff]
  simp only [eq_comm]

/-- What becomes of a key's variants when the shard of another is replaced. -/
theorem variantsAt_setShard (shard : Shard) :
    (store.setShard process key shard).variantsAt process k =
      if store.shardIndex process k = store.shardIndex process key then shard.variantsAt k
      else store.variantsAt process k := by
  rw [variantsAt, shardOf_setShard]
  split_ifs <;> rfl

theorem variantsAt_of_index_eq (h : store.shardIndex process k = store.shardIndex process key) :
    (store.shardOf process key).variantsAt k = store.variantsAt process k := by
  rw [variantsAt, shardOf, shardOf, h]

/-- **A read leaves every variant where it was.** -/
theorem variantsAt_get : (store.get process key).2.variantsAt process k =
    store.variantsAt process k := by
  show (store.setShard process key _).variantsAt process k = _
  rw [variantsAt_setShard]
  split_ifs with h
  · rw [Shard.variantsAt_touch]
    exact variantsAt_of_index_eq h
  · rfl

/-- **A removal clears its key and no other.** -/
theorem variantsAt_remove : (store.remove process key).variantsAt process k =
    if k = key then [] else store.variantsAt process k := by
  rw [remove, variantsAt_setShard]
  split_ifs with h hk hk
  · rw [Shard.variantsAt_remove, if_pos hk]
  · rw [Shard.variantsAt_remove, if_neg hk, variantsAt_of_index_eq h]
  · exact absurd (hk ▸ rfl) h
  · rfl

/-- **A write adds the entry it was given, under its key, and nothing else.** -/
theorem mem_variantsAt_put {entry e : CacheEntry}
    (h : e ∈ (store.put process key entry).variantsAt process k) :
    e ∈ store.variantsAt process k ∨ k = key ∧ e = entry := by
  unfold put putAt at h
  dsimp only at h
  split at h
  · have h : e ∈ (store.setShard process key _).variantsAt process k := h
    rw [variantsAt_setShard] at h
    split_ifs at h with hidx
    · rw [Shard.variantsAt_remove] at h
      split_ifs at h with hk
      · cases h
      · exact Or.inl (variantsAt_of_index_eq hidx ▸ h)
    · exact Or.inl h
  · have h : e ∈ (store.setShard process key _).variantsAt process k := h
    rw [variantsAt_setShard] at h
    split_ifs at h with hidx
    · have h := Shard.variantsAt_purge_subset _ _ _ h
      rw [Shard.variantsAt_insert] at h
      split_ifs at h with hk
      · rcases mem_mergeVariants h with h | rfl
        · exact Or.inl (hk ▸ h)
        · exact Or.inr ⟨hk, rfl⟩
      · exact Or.inl (variantsAt_of_index_eq hidx ▸ h)
    · exact Or.inl h

theorem variantsAt_withLimits (limits : MemoryLimits) :
    (withLimits limits).variantsAt process k = [] := by
  unfold variantsAt shardOf withLimits
  rw [List.get_eq_getElem]
  simp [Shard.variantsAt, Shard.empty]

end MemoryStore

end Chromulate.Cache
