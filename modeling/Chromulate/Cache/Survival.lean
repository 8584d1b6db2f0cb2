import Chromulate.Cache.Accounting

/-!
# What a put leaves of its shard

A put stamps its record with a tick that no record has exceeded, so in the order of the purge the
record comes last. The purge goes on until what remains is at most seven eighths of the share, and
nothing keeps it from the last record: `cutoff_lt_iff` says that it stops in time exactly when the
records with the newest stamp fit that target. A record between seven eighths of the share and the
whole of it therefore fits, is stored, and is purged at once with everything else in the shard, if
there was anything else to push the shard over its share.

The stores are those that any interleaving of tasks reaches (`Reached`): a task draws its tick
before it takes the lock of a shard, so the stamps in a shard need not be in the order of the
calls, but none is later than the last tick drawn.

**Theorem (`put_keeps_iff`).** A put stores what fits and empties no shard exactly when it is
`Roomy`.
-/

namespace Chromulate.Cache

namespace Shard

variable {layout : Layout} {shard : Shard} {key : CacheKey}

/-! ## Where the purge stops -/

/-- The purge stops before the newest stamp exactly when the records that bear it fit the
target. -/
theorem cutoff_lt_iff (target : Nat) {newest cut : Nat} {ages : List (Nat × Nat)}
    (hsorted : ages.Pairwise fun a b => a.1 ≤ b.1) (hle : ∀ age ∈ ages, age.1 ≤ newest)
    (hcut : cut < newest) :
    cutoff target (ages.map Prod.snd).sum cut ages < newest ↔
      ((ages.filter fun age => age.1 = newest).map Prod.snd).sum ≤ target := by
  induction ages generalizing cut with
  | nil => exact iff_of_true hcut (Nat.zero_le _)
  | cons age ages ih =>
    obtain ⟨hhead, htail⟩ := List.pairwise_cons.mp hsorted
    have hle' : ∀ other ∈ ages, other.1 ≤ newest := fun other h => hle other (.tail _ h)
    rw [cutoff]
    split
    · rename_i hfits
      refine iff_of_true hcut (le_trans ?_ hfits)
      exact (List.filter_sublist.map _).sum_le_sum fun _ _ => Nat.zero_le _
    · rename_i hover
      have hleft : ((age :: ages).map Prod.snd).sum
          - min age.2 ((age :: ages).map Prod.snd).sum = (ages.map Prod.snd).sum := by
        simp only [List.map_cons, List.sum_cons]
        omega
      rw [hleft]
      by_cases hage : age.1 = newest
      · -- all that is left bears the newest stamp
        have hall : ∀ other ∈ age :: ages, other.1 = newest := by
          intro other hother
          rcases List.mem_cons.mp hother with rfl | hother
          · exact hage
          · exact le_antisymm (hle' other hother) (hage ▸ hhead other hother)
        have hpast : newest ≤ cutoff target (ages.map Prod.snd).sum age.1 ages :=
          hage ▸ le_cutoff htail hhead
        rw [List.filter_eq_self.mpr fun other hother => decide_eq_true (hall other hother)]
        exact iff_of_false (Nat.not_lt.mpr hpast) hover
      · have hlt : age.1 < newest := lt_of_le_of_ne (hle age List.mem_cons_self) hage
        rw [List.filter_cons_of_neg (by simpa using hage)]
        exact ih htail hle' hlt

/-- No record was used after the tick. -/
def StampedBy (tick : Nat) (shard : Shard) : Prop :=
  ∀ key record, shard.records.lookup key = some record → record.lastUsed ≤ tick

/-- The bytes of the records with a stamp. -/
def bytesOf (tick : Nat) (records : Table CacheKey Record) : Nat :=
  ((records.values.filter fun record => record.lastUsed = tick).map Record.bytes).sum

theorem StampedBy.mono {tick later : Nat} (h : shard.StampedBy tick) (hle : tick ≤ later) :
    shard.StampedBy later := fun key record hlookup => (h key record hlookup).trans hle

theorem stampedBy_empty (tick : Nat) : empty.StampedBy tick := by
  intro key record h
  simp [empty] at h

theorem StampedBy.touch {tick now : Nat} (h : shard.StampedBy tick) (hnow : now ≤ tick)
    (key : CacheKey) : (shard.touch now key).StampedBy tick := by
  unfold Shard.touch
  split
  · intro k record hlookup
    rcases Table.lookup_insert_eq_some.mp hlookup with ⟨_, rfl⟩ | ⟨_, hold⟩
    · exact hnow
    · exact h k record hold
  · exact h

theorem StampedBy.remove {tick : Nat} (h : shard.StampedBy tick) (key : CacheKey) :
    (shard.remove key).StampedBy tick := by
  unfold Shard.remove
  split
  · intro k record hlookup
    exact h k record (Table.lookup_erase_eq_some.mp hlookup).2
  · exact h

theorem StampedBy.insert {tick now : Nat} (h : shard.StampedBy tick) (hnow : now ≤ tick)
    (layout : Layout) (key : CacheKey) (entry : CacheEntry) :
    (shard.insert layout now key entry).StampedBy tick := by
  intro k record hlookup
  rcases Table.lookup_insert_eq_some.mp hlookup with ⟨_, rfl⟩ | ⟨_, hold⟩
  · exact hnow
  · exact h k record hold

theorem StampedBy.purge {tick : Nat} (h : shard.StampedBy tick) (limits : MemoryLimits) :
    (shard.purge limits).StampedBy tick := by
  unfold Shard.purge
  split
  · exact h
  · intro k record hlookup
    rw [Table.lookup_retain, Option.filter_eq_some_iff] at hlookup
    exact h k record hlookup.1

theorem sum_ages_filter (shard : Shard) (tick : Nat) :
    ((shard.ages.filter fun age => age.1 = tick).map Prod.snd).sum =
      bytesOf tick shard.records := by
  rw [(((perm_ages shard).filter _).map Prod.snd).sum_eq, bytesOf]
  simp only [List.filter_map, List.map_map]
  rfl

theorem bytesOf_insert (tick : Nat) (records : Table CacheKey Record) (key : CacheKey)
    {record : Record} (h : record.lastUsed = tick) :
    bytesOf tick (records.insert key record) = record.bytes + bytesOf tick (records.erase key) := by
  have hvalues : Table.values (records.insert key record) =
      record :: Table.values (records.erase key) := rfl
  rw [bytesOf, hvalues, List.filter_cons_of_pos (by simpa using h)]
  rfl

theorem bytesOf_eq_zero {tick : Nat} {records : Table CacheKey Record}
    (h : ∀ key record, records.lookup key = some record → record.lastUsed ≠ tick) :
    bytesOf tick records = 0 := by
  have hnone : (records.values.filter fun record => record.lastUsed = tick) = [] := by
    refine List.filter_eq_nil_iff.mpr fun record hmem => ?_
    obtain ⟨key, hlookup⟩ := Table.mem_values.mp hmem
    simpa using h key record hlookup
  rw [bytesOf, hnone]
  rfl

/-- The cut of a purge comes before the newest stamp exactly when the records that bear it fit. -/
theorem Balanced.cut_lt_iff (h : shard.Balanced layout) {tick : Nat} (hpos : 0 < tick)
    (hstamped : shard.StampedBy tick) (target : Nat) :
    cutoff target shard.bytes 0 shard.ages < tick ↔ bytesOf tick shard.records ≤ target := by
  have hle : ∀ age ∈ shard.ages, age.1 ≤ tick := by
    intro age hage
    obtain ⟨record, hmem, rfl⟩ := List.mem_map.mp ((perm_ages shard).mem_iff.mp hage)
    obtain ⟨key, hlookup⟩ := Table.mem_values.mp hmem
    exact hstamped key record hlookup
  have hcut := cutoff_lt_iff target (pairwise_ages shard) hle hpos
  rw [sum_ages, ← h.bytes, sum_ages_filter] at hcut
  exact hcut

/-- There is room for a record with its stamp: the shard does not outgrow its share, or the records
with that stamp fit the target of a purge. -/
def HasRoom (layout : Layout) (limits : MemoryLimits) (tick : Nat) (key : CacheKey)
    (entry : CacheEntry) (shard : Shard) : Prop :=
  (shard.insert layout tick key entry).bytes ≤ limits.perShard ∨
    shard.mergedSize layout key entry + bytesOf tick (shard.records.erase key) ≤ limits.purgeTarget

instance (layout : Layout) (limits : MemoryLimits) (tick : Nat) (key : CacheKey)
    (entry : CacheEntry) (shard : Shard) :
    Decidable (shard.HasRoom layout limits tick key entry) :=
  inferInstanceAs (Decidable (_ ∨ _))

section Put

variable (h : shard.Balanced layout) {tick : Nat} (hpos : 0 < tick)
  (hstamped : shard.StampedBy tick) (limits : MemoryLimits) (entry : CacheEntry)
include h hpos hstamped

/-- With room, the record is there after the purge. -/
theorem lookup_purge_of_hasRoom (hroom : shard.HasRoom layout limits tick key entry) :
    ((shard.insert layout tick key entry).purge limits).records.lookup key =
      some ⟨mergeVariants (shard.variantsAt key) entry, shard.mergedSize layout key entry,
        tick⟩ := by
  have hinserted := h.insert tick key entry
  unfold Shard.purge
  split
  · exact AList.lookup_insert _
  · rename_i hover
    have hfits := hroom.resolve_left hover
    have hlookup : (shard.insert layout tick key entry).records.lookup key = some _ :=
      AList.lookup_insert _
    have hcut := (hinserted.cut_lt_iff hpos (hstamped.insert le_rfl layout key entry)
      limits.purgeTarget).mpr (by
        show bytesOf tick (shard.records.insert key _) ≤ _
        rw [bytesOf_insert tick _ _ rfl]
        exact hfits)
    rw [Table.lookup_retain, hlookup, Option.filter_some, if_pos (decide_eq_true hcut)]

theorem lookup_purge_of_not_hasRoom (hroom : ¬ shard.HasRoom layout limits tick key entry)
    (other : CacheKey) :
    ((shard.insert layout tick key entry).purge limits).records.lookup other = none := by
  have hinserted := h.insert tick key entry
  have hstamped' := hstamped.insert le_rfl layout key entry
  obtain ⟨hover, hbig⟩ := not_or.mp hroom
  have hcut := mt (hinserted.cut_lt_iff hpos hstamped' limits.purgeTarget).mp (by
    show ¬ bytesOf tick (shard.records.insert key _) ≤ _
    rw [bytesOf_insert tick _ _ rfl]
    exact hbig)
  rw [Shard.purge, if_neg hover]
  show (Table.retain _ _).lookup other = none
  rw [Table.lookup_retain, Option.filter_eq_none_iff]
  intro record hrecord hkept
  have hlt := of_decide_eq_true hkept
  exact hcut (lt_of_lt_of_le hlt (hstamped' other record hrecord))

end Put

end Shard

namespace MemoryStore

/-! ## The stores that tasks reach -/

variable {process : Process} {store : MemoryStore} {key : CacheKey} {entry : CacheEntry}

/-- A store that tasks reach: between drawing its tick and taking the lock of the shard, a task
may be overtaken by any number of others. -/
inductive Reached (process : Process) (limits : MemoryLimits) : MemoryStore → Prop
  | new : Reached process limits (withLimits limits)
  | draw {store : MemoryStore} (h : Reached process limits store) :
      Reached process limits store.draw
  | get {store : MemoryStore} (h : Reached process limits store) {tick : Nat}
      (hdrawn : tick ≤ store.tick) (key : CacheKey) :
      Reached process limits (store.getAt process tick key)
  | put {store : MemoryStore} (h : Reached process limits store) {tick : Nat}
      (hdrawn : tick ≤ store.tick) (key : CacheKey) (entry : CacheEntry) :
      Reached process limits (store.putAt process tick key entry)
  | remove {store : MemoryStore} (h : Reached process limits store) (key : CacheKey) :
      Reached process limits (store.remove process key)

/-- No stamp is later than the last tick. -/
def Stamped (store : MemoryStore) : Prop := ∀ shard ∈ store.shards, shard.StampedBy store.tick

theorem le_nextTick (h : store.tick ≤ u64Max) : store.tick ≤ store.nextTick := by
  rw [nextTick]
  omega

variable {shard : Shard}

theorem Stamped.setShard (h : store.Stamped) (hshard : shard.StampedBy store.tick)
    (key : CacheKey) :
    (store.setShard process key shard).Stamped := by
  intro other hother
  rcases List.mem_or_eq_of_mem_set hother with hother | rfl
  · exact h other hother
  · exact hshard

/-- What holds of every store that tasks reach. -/
structure Sound (process : Process) (store : MemoryStore) : Prop where
  balanced : store.Balanced process.layout
  stamped : store.Stamped
  tick_le : store.tick ≤ u64Max

theorem Sound.putAt (h : store.Sound process) {tick : Nat} (hdrawn : tick ≤ store.tick)
    (key : CacheKey) (entry : CacheEntry) : (store.putAt process tick key entry).Sound process := by
  have hstamped := h.stamped _ (shardOf_mem process store key)
  refine ⟨h.balanced.putAt tick key entry, ?_, ?_⟩
  · rw [MemoryStore.putAt]
    split_ifs
    · exact h.stamped.setShard (hstamped.remove key) key
    · have hkept : (store.setShard process key _).Stamped := h.stamped.setShard
        ((hstamped.insert hdrawn process.layout key entry).purge store.limits) key
      exact hkept
  · rw [MemoryStore.putAt]
    split_ifs <;> exact h.tick_le

theorem Reached.sound {limits : MemoryLimits} (h : Reached process limits store) :
    store.Sound process := by
  induction h with
  | new =>
    refine ⟨balanced_withLimits limits, fun shard hshard => ?_, Nat.zero_le _⟩
    rw [List.eq_of_mem_replicate hshard]
    exact Shard.stampedBy_empty _
  | @draw store _ ih =>
    refine ⟨ih.balanced.draw,
      fun shard hshard => (ih.stamped shard hshard).mono (le_nextTick ih.tick_le), ?_⟩
    exact Nat.min_le_right _ _
  | @get store _ tick hdrawn key ih =>
    have hmem := shardOf_mem process store key
    exact ⟨ih.balanced.getAt tick key,
      ih.stamped.setShard ((ih.stamped _ hmem).touch hdrawn key) key, ih.tick_le⟩
  | put _ hdrawn key entry ih => exact ih.putAt hdrawn key entry
  | @remove store _ key ih =>
    have hmem := shardOf_mem process store key
    exact ⟨ih.balanced.remove key, ih.stamped.setShard ((ih.stamped _ hmem).remove key) key,
      ih.tick_le⟩

/-! ## What a put keeps -/

/-- The put stores an entry whose record fits, and leaves no shard empty that was not. -/
structure Keeps (process : Process) (store : MemoryStore) (key : CacheKey) (entry : CacheEntry) :
    Prop where
  stored : (store.shardOf process key).mergedSize process.layout key entry ≤
      store.limits.perShard →
    ((store.put process key entry).variantsAt process key).getLast? = some entry
  populated : ∀ (i : Nat) (shard shard' : Shard), store.shards[i]? = some shard →
    (store.put process key entry).shards[i]? = some shard' →
    shard.records ≠ ∅ → shard'.records ≠ ∅

/-- A record that fits has room; one that does not is not the only one of its shard. -/
def Roomy (process : Process) (store : MemoryStore) (key : CacheKey) (entry : CacheEntry) : Prop :=
  let shard := store.shardOf process key
  if shard.mergedSize process.layout key entry ≤ store.limits.perShard then
    shard.HasRoom process.layout store.limits store.nextTick key entry
  else shard.records.keys ≠ [key]

instance : Decidable (store.Roomy process key entry) :=
  inferInstanceAs (Decidable (ite _ _ _))

/-- Only the shard that is replaced can be emptied. -/
theorem populated_setShard :
    (∀ (i : Nat) (old new : Shard), store.shards[i]? = some old →
        (store.setShard process key shard).shards[i]? = some new →
        old.records ≠ ∅ → new.records ≠ ∅) ↔
      ((store.shardOf process key).records ≠ ∅ → shard.records ≠ ∅) := by
  have hget : store.shards[(store.shardIndex process key).val]? =
      some (store.shardOf process key) := by
    rw [List.getElem?_eq_getElem (store.shardIndex process key).isLt]
    rfl
  constructor
  · intro h
    refine h (store.shardIndex process key) _ _ hget ?_
    exact List.getElem?_set_self (store.shardIndex process key).isLt
  · intro h i old new hold hnew hne
    by_cases hi : (store.shardIndex process key).val = i
    · subst hi
      rw [hget] at hold
      cases hold
      have hset : (store.setShard process key shard).shards[(store.shardIndex process key).val]? =
          some shard := List.getElem?_set_self (store.shardIndex process key).isLt
      rw [hset] at hnew
      cases hnew
      exact h hne
    · have hset : (store.setShard process key shard).shards[i]? = store.shards[i]? :=
        List.getElem?_set_ne hi
      rw [hset, hold] at hnew
      cases hnew
      exact hne

/-- Removing a key empties a shard that holds nothing else. -/
theorem remove_ne_empty_iff :
    (shard.records ≠ ∅ → (shard.remove key).records ≠ ∅) ↔ shard.records.keys ≠ [key] := by
  rw [Shard.remove]
  cases hlookup : shard.records.lookup key with
  | none =>
    refine iff_of_true id fun hkeys => ?_
    have hmem : key ∈ shard.records := by
      rw [AList.mem_keys, hkeys]
      exact List.mem_singleton_self key
    exact AList.lookup_eq_none.mp hlookup hmem
  | some record =>
    have hperm : shard.records.keys.Perm (key :: (shard.records.erase key).keys) :=
      (Table.entries_perm hlookup).map Sigma.fst
    have hne : shard.records ≠ ∅ := by
      intro hempty
      rw [hempty] at hlookup
      cases hlookup
    rw [forall_prop_of_true hne, not_iff_not]
    constructor
    · intro hempty
      have hnil : shard.records.erase key = ∅ := hempty
      rw [hnil] at hperm
      exact List.perm_singleton.mp hperm
    · intro hkeys
      rw [hkeys] at hperm
      have hnil : (shard.records.erase key).keys = [] :=
        (List.cons_eq_cons.mp (List.singleton_perm.mp hperm)).2.symm
      exact AList.ext (List.map_eq_nil_iff.mp hnil)

theorem put_of_fits (hfits : (store.shardOf process key).mergedSize process.layout key entry ≤
      store.limits.perShard) :
    (store.put process key entry).shards = (store.setShard process key
      (((store.shardOf process key).insert process.layout store.nextTick key entry).purge
        store.limits)).shards ∧
    (store.put process key entry).variantsAt process key =
      (((store.shardOf process key).insert process.layout store.nextTick key entry).purge
        store.limits).variantsAt key := by
  have hnot : ¬ store.draw.limits.perShard <
      (store.draw.shardOf process key).mergedSize process.layout key entry := Nat.not_lt.mpr hfits
  rw [put, putAt, if_neg hnot]
  refine ⟨rfl, ?_⟩
  show (store.setShard process key _).variantsAt process key = _
  rw [variantsAt_setShard, if_pos rfl]
  rfl

/-- **What a put keeps.** In every store that tasks reach, a put stores what fits and empties no
shard exactly when it is `Roomy`; and below the last tick no other record has the stamp of the
put, so that the room it needs is that of its own record. -/
theorem put_keeps_iff {limits : MemoryLimits} (h : Reached process limits store) (key : CacheKey)
    (entry : CacheEntry) :
    (store.Keeps process key entry ↔ store.Roomy process key entry) ∧
      (store.tick < u64Max →
        Shard.bytesOf store.nextTick ((store.shardOf process key).records.erase key) = 0) := by
  obtain ⟨hbalanced, hstamped, hle⟩ := h.sound
  have hmem := shardOf_mem process store key
  have hshard := hbalanced.shards _ hmem
  have hnewest := (hstamped _ hmem).mono (le_nextTick hle)
  have hpos : 0 < store.nextTick := by
    rw [nextTick]
    exact lt_min (Nat.succ_pos _) (by decide)
  refine ⟨?_, fun hlt => ?_⟩
  · rw [Roomy]
    by_cases hfits : (store.shardOf process key).mergedSize process.layout key entry ≤
        store.limits.perShard
    · obtain ⟨hshards, hvariants⟩ := put_of_fits hfits
      rw [if_pos hfits]
      constructor
      · intro hkeeps
        by_contra hroom
        have hnone := Shard.lookup_purge_of_not_hasRoom hshard hpos hnewest _ entry hroom key
        have hlast := hkeeps.stored hfits
        rw [hvariants, Shard.variantsAt, hnone] at hlast
        cases hlast
      · intro hroom
        have hsome := Shard.lookup_purge_of_hasRoom hshard hpos hnewest _ entry hroom
        refine ⟨fun _ => ?_, ?_⟩
        · rw [hvariants, Shard.variantsAt, hsome]
          exact List.getLast?_concat
        · rw [hshards]
          refine populated_setShard.mpr fun _ hempty => ?_
          rw [hempty] at hsome
          cases hsome
    · have hshards : (store.put process key entry).shards =
          (store.setShard process key ((store.shardOf process key).remove key)).shards := by
        have hover : store.draw.limits.perShard <
            (store.draw.shardOf process key).mergedSize process.layout key entry :=
          Nat.lt_of_not_le hfits
        rw [put, putAt, if_pos hover]
        rfl
      rw [if_neg hfits, ← remove_ne_empty_iff, ← populated_setShard, ← hshards]
      exact ⟨Keeps.populated, fun hpopulated => ⟨fun hcontra => absurd hcontra hfits, hpopulated⟩⟩
  · -- the tick is new
    refine Shard.bytesOf_eq_zero fun other record hlookup => ?_
    have hold := hstamped _ hmem other record (Table.lookup_erase_eq_some.mp hlookup).2
    rw [nextTick]
    omega

/-- One shard of a thousand bytes, with a purge target of 875. -/
def oneShard : MemoryLimits := ⟨1000, 1⟩

def plainProcess : Process := ⟨fun _ => 0, ⟨40, 60⟩⟩

def pageKey (target : String) : CacheKey := ⟨.get, target.toList⟩

/-- A response with a body of some length. -/
def page (length : Nat) : CacheEntry :=
  ⟨200, .http11, [], List.replicate length 0, Selector.any, 0, 0⟩

/-- A store with one record. -/
def holding (length : Nat) : MemoryStore :=
  (withLimits oneShard).put plainProcess (pageKey "/a") (page length)

def small : MemoryStore := holding 10

theorem reached_holding (length : Nat) : Reached plainProcess oneShard (holding length) := by
  rw [holding, put]
  exact Reached.new.draw.put (Nat.le_refl _) _ _

/-- A record of no more than seven eighths of the share: there is room for it, or there is once the
other one is purged. -/
theorem put_keeps_page : small.Keeps plainProcess (pageKey "/b") (page 700) ∧
    (holding 200).Keeps plainProcess (pageKey "/b") (page 700) ∧
      ((holding 200).put plainProcess (pageKey "/b") (page 700)).shards.map (fun shard =>
        shard.records.keys) = [[pageKey "/b"]] :=
  ⟨(put_keeps_iff (reached_holding 10) _ _).1.mpr (by decide +kernel),
    (put_keeps_iff (reached_holding 200) _ _).1.mpr (by decide +kernel), by decide +kernel⟩

/-- A record of less than the share, and more than seven eighths of it. -/
theorem put_flushes_shard :
    (small.shardOf plainProcess (pageKey "/b")).mergedSize plainProcess.layout (pageKey "/b")
        (page 860) ≤ small.limits.perShard ∧
      (small.shardOf plainProcess (pageKey "/b")).records.keys = [pageKey "/a"] ∧
      (small.put plainProcess (pageKey "/b") (page 860)).shards.map (fun shard =>
        shard.records.keys) = [[]] := by
  decide +kernel

theorem Reached.maxBytes_eq {limits : MemoryLimits} (h : Reached process limits store) :
    store.limits.maxBytes = limits.maxBytes := by
  induction h with
  | new => rfl
  | put _ _ _ _ ih =>
    rw [putAt]
    split_ifs <;> exact ih
  | _ => assumption

/-- **The books balance for many tasks at once**, whoever overtakes whom between drawing a tick and
taking a lock, and no stamp is later than the last tick. -/
theorem reached_balanced {limits : MemoryLimits} (hsized : process.layout.Sized)
    (h : Reached process limits store) :
    (∀ shard ∈ store.shards, shard.Balanced process.layout ∧ shard.StampedBy store.tick) ∧
      (store.shards.map Shard.bytes).sum ≤ limits.maxBytes := by
  obtain ⟨hbalanced, hstamped, -⟩ := h.sound
  refine ⟨fun shard hshard => ⟨hbalanced.shards shard hshard, hstamped shard hshard⟩, ?_⟩
  rw [← h.maxBytes_eq]
  exact hbalanced.total_le hsized

theorem small_balanced : (small.shards.map Shard.bytes).sum ≤ 1000 :=
  (reached_balanced (by decide) (reached_holding 10)).2

end MemoryStore

end Chromulate.Cache
