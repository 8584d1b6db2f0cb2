import Chromulate.Cache.Storage
import Chromulate.Lib.Recency
import Mathlib.Algebra.Order.BigOperators.Group.List
import Mathlib.Algebra.Order.Ring.Nat

/-!
# The store's books

Every shard counts its bytes in a running counter that `put` and `remove` correct and `purge`
recomputes. `Shard.Balanced` is what the counter stands for, and `MemoryStore.Balanced` the same
of every shard, with the share each of them may use.

* A purge brings its shard down to the target (`bytes_purge_le`): what is kept was last used
  after the cut, and the cut moved until the rest fitted.
* **Theorem (`run_balanced`).** After any calls, under any limits, every counter is the sum of
  its records, every record is the sum of its parts and is not empty, no two variants of a key
  have one selector, and the store is within its budget.

When the budget is smaller than the number of shards, each shard's share is rounded *up* to one
byte, so the shares alone exceed the budget. It still holds, since a key is larger than that.
-/

namespace Chromulate.Cache

/-- A key holds a boxed string, which is two words, so its size is more than one byte. -/
def Layout.Sized (layout : Layout) : Prop := 1 < layout.key

instance (layout : Layout) : Decidable layout.Sized := inferInstanceAs (Decidable (1 < _))

/-! ## One shard -/

/-- The sum a record's size stands for. -/
def Record.total (layout : Layout) (key : CacheKey) (record : Record) : Nat :=
  key.size layout + (record.variants.map (·.size layout)).sum

/-- A record that is charged for what it holds. -/
structure Record.Balanced (layout : Layout) (key : CacheKey) (record : Record) : Prop where
  bytes : record.bytes = record.total layout key
  ne_nil : record.variants ≠ []
  selectors : (record.variants.map CacheEntry.selector).Nodup

/-- A shard whose counter is the sum of its records. -/
structure Shard.Balanced (layout : Layout) (shard : Shard) : Prop where
  bytes : shard.bytes = shard.records.sumOf Record.bytes
  record : ∀ key record, shard.records.lookup key = some record → record.Balanced layout key

namespace Shard

variable {layout : Layout} {shard : Shard} {key : CacheKey}

theorem balanced_empty : empty.Balanced layout where
  bytes := rfl
  record key record h := by simp [empty] at h

theorem Balanced.bytes_eq (h : shard.Balanced layout) (key : CacheKey) :
    shard.bytes = shard.bytesAt key + Table.sumOf Record.bytes (shard.records.erase key) := by
  rw [h.bytes, bytesAt]
  cases hlookup : shard.records.lookup key with
  | none =>
    rw [Table.sumOf_erase_of_lookup_none hlookup]
    exact (Nat.zero_add _).symm
  | some record => exact Table.sumOf_eq_of_lookup hlookup

theorem Balanced.nodup_selectors (h : shard.Balanced layout) (key : CacheKey) :
    ((shard.variantsAt key).map CacheEntry.selector).Nodup := by
  unfold variantsAt
  cases hlookup : shard.records.lookup key with
  | none => exact List.nodup_nil
  | some record => exact (h.record key record hlookup).selectors

theorem Balanced.touch (h : shard.Balanced layout) (tick : Nat) (key : CacheKey) :
    (shard.touch tick key).Balanced layout := by
  unfold Shard.touch
  cases hlookup : shard.records.lookup key with
  | none => exact h
  | some record =>
    refine ⟨?_, fun k r hr => ?_⟩
    · show shard.bytes = _
      rw [Table.sumOf_insert, h.bytes, Table.sumOf_eq_of_lookup hlookup]
    · have hold := h.record key record hlookup
      rcases Table.lookup_insert_eq_some.mp hr with ⟨rfl, rfl⟩ | ⟨-, hother⟩
      · exact ⟨hold.bytes, hold.ne_nil, hold.selectors⟩
      · exact h.record k r hother

theorem Balanced.remove (h : shard.Balanced layout) (key : CacheKey) :
    (shard.remove key).Balanced layout := by
  have hbytes := h.bytes_eq key
  unfold Shard.remove
  cases hlookup : shard.records.lookup key with
  | none => exact h
  | some record =>
    rw [bytesAt, hlookup] at hbytes
    refine ⟨?_, fun k r hr => ?_⟩
    · show shard.bytes - min record.bytes shard.bytes =
        Table.sumOf Record.bytes (shard.records.erase key)
      dsimp only at hbytes
      omega
    · exact h.record k r (Table.lookup_erase_eq_some.mp hr).2

theorem Balanced.insert (h : shard.Balanced layout) (tick : Nat) (key : CacheKey)
    (entry : CacheEntry) : (shard.insert layout tick key entry).Balanced layout := by
  refine ⟨?_, fun k r hr => ?_⟩
  · have hbytes := h.bytes_eq key
    show shard.bytes + shard.mergedSize layout key entry - min (shard.bytesAt key) shard.bytes =
      Table.sumOf Record.bytes (shard.records.insert key _)
    rw [Table.sumOf_insert]
    dsimp only
    omega
  · by_cases hk : k = key
    · subst hk
      rw [Shard.insert, AList.lookup_insert] at hr
      cases hr
      refine ⟨rfl, by simp [mergeVariants], ?_⟩
      exact Recency.nodup_keys_push (h.nodup_selectors k) entry
    · rw [Shard.insert, AList.lookup_insert_ne hk] at hr
      exact h.record k r hr

/-! ## The purge -/

theorem le_cutoff {target remaining cut : Nat} {ages : List (Nat × Nat)}
    (hsorted : ages.Pairwise fun a b => a.1 ≤ b.1) (hcut : ∀ age ∈ ages, cut ≤ age.1) :
    cut ≤ cutoff target remaining cut ages := by
  induction ages generalizing remaining cut with
  | nil => exact le_rfl
  | cons age ages ih =>
    obtain ⟨hhead, htail⟩ := List.pairwise_cons.mp hsorted
    rw [cutoff]
    split
    · exact le_rfl
    · exact (hcut age List.mem_cons_self).trans (ih htail hhead)

/-- What was last used after the cut fits the target. -/
theorem sum_after_cutoff_le (target cut : Nat) {ages : List (Nat × Nat)}
    (hsorted : ages.Pairwise fun a b => a.1 ≤ b.1) :
    ((ages.filter fun age => cutoff target (ages.map Prod.snd).sum cut ages < age.1).map
      Prod.snd).sum ≤ target := by
  induction ages generalizing cut with
  | nil => exact Nat.zero_le _
  | cons age ages ih =>
    obtain ⟨hhead, htail⟩ := List.pairwise_cons.mp hsorted
    rw [cutoff]
    split
    · rename_i hfits
      exact ((List.filter_sublist.map _).sum_le_sum fun _ _ => Nat.zero_le _).trans hfits
    · -- The record is past the cut, whatever the cut becomes.
      have hleft : ((age :: ages).map Prod.snd).sum
          - min age.2 ((age :: ages).map Prod.snd).sum = (ages.map Prod.snd).sum := by
        simp only [List.map_cons, List.sum_cons]
        omega
      rw [hleft]
      have hpast : ¬ cutoff target (ages.map Prod.snd).sum age.1 ages < age.1 :=
        Nat.not_lt.mpr (le_cutoff htail hhead)
      rw [List.filter_cons_of_neg (by simpa using hpast)]
      exact ih _ htail

theorem perm_ages (shard : Shard) : shard.ages.Perm
    (shard.records.values.map fun record => (record.lastUsed, record.bytes)) :=
  List.perm_insertionSort _ _

instance : Std.Total fun a b : Nat × Nat => a.1 ≤ b.1 := ⟨fun a b => le_total a.1 b.1⟩

instance : IsTrans (Nat × Nat) fun a b => a.1 ≤ b.1 := ⟨fun _ _ _ => le_trans⟩

theorem pairwise_ages (shard : Shard) : shard.ages.Pairwise fun a b => a.1 ≤ b.1 :=
  List.pairwise_insertionSort _ _

theorem sum_ages (shard : Shard) :
    (shard.ages.map Prod.snd).sum = shard.records.sumOf Record.bytes := by
  rw [((perm_ages shard).map Prod.snd).sum_eq, List.map_map]
  rfl

/-- What is kept of a table, summed. -/
theorem sumOf_retain_lastUsed (shard : Shard) (cut : Nat) :
    (shard.records.retain fun _ record => decide (cut < record.lastUsed)).sumOf Record.bytes =
      ((shard.ages.filter fun age => cut < age.1).map Prod.snd).sum := by
  rw [(((perm_ages shard).filter _).map Prod.snd).sum_eq]
  unfold Table.sumOf Table.values Table.retain
  simp only [List.filter_map, List.map_map]
  rfl

/-- **A purge brings the shard down to its target.** -/
theorem Balanced.bytes_purge_le (h : shard.Balanced layout) (limits : MemoryLimits) :
    (shard.purge limits).bytes ≤ limits.perShard := by
  unfold purge
  split
  · assumption
  · have hcut := sum_after_cutoff_le limits.purgeTarget 0 (pairwise_ages shard)
    rw [sum_ages, ← h.bytes] at hcut
    show Table.sumOf Record.bytes _ ≤ _
    rw [sumOf_retain_lastUsed]
    exact hcut.trans (Nat.sub_le _ _)

theorem Balanced.purge (h : shard.Balanced layout) (limits : MemoryLimits) :
    (shard.purge limits).Balanced layout := by
  unfold Shard.purge
  split
  · exact h
  · refine ⟨rfl, fun k r hr => ?_⟩
    rw [Table.lookup_retain, Option.filter_eq_some_iff] at hr
    exact h.record k r hr.1

/-- A shard that holds anything holds a whole key. -/
theorem Balanced.bytes_eq_zero_or (h : shard.Balanced layout) (hsized : layout.Sized) :
    shard.bytes = 0 ∨ 1 < shard.bytes := by
  by_cases hvalues : shard.records.values = []
  · left
    rw [h.bytes, Table.sumOf, hvalues]
    rfl
  · right
    obtain ⟨record, hmem⟩ := List.exists_mem_of_ne_nil _ hvalues
    obtain ⟨key, hlookup⟩ := Table.mem_values.mp hmem
    have hkey : layout.key ≤ record.bytes := by
      rw [(h.record key record hlookup).bytes, Record.total, CacheKey.size]
      omega
    rw [h.bytes, Table.sumOf_eq_of_lookup hlookup]
    unfold Layout.Sized at hsized
    omega

end Shard

/-! ## The whole store -/

namespace MemoryStore

/-- A store whose shards are balanced and within their shares. -/
structure Balanced (layout : Layout) (store : MemoryStore) : Prop where
  shards : ∀ shard ∈ store.shards, shard.Balanced layout
  share : ∀ shard ∈ store.shards, shard.bytes ≤ store.limits.perShard
  length : store.shards.length = max store.limits.shards 1

variable {process : Process} {store : MemoryStore}

theorem balanced_withLimits (limits : MemoryLimits) :
    (withLimits limits).Balanced process.layout where
  shards shard h := by
    rw [List.eq_of_mem_replicate h]
    exact Shard.balanced_empty
  share shard h := by
    rw [List.eq_of_mem_replicate h]
    exact Nat.zero_le _
  length := by simp [withLimits]

theorem shardOf_mem (process : Process) (store : MemoryStore) (key : CacheKey) :
    store.shardOf process key ∈ store.shards := List.get_mem _ _

/-- Only the shard that is replaced has to be looked at again. -/
theorem Balanced.setShard (h : store.Balanced process.layout) (key : CacheKey) {shard : Shard}
    (hshard : shard.Balanced process.layout) (hshare : shard.bytes ≤ store.limits.perShard) :
    (store.setShard process key shard).Balanced process.layout where
  shards other hother := by
    rcases List.mem_or_eq_of_mem_set hother with hother | rfl
    · exact h.shards other hother
    · exact hshard
  share other hother := by
    rcases List.mem_or_eq_of_mem_set hother with hother | rfl
    · exact h.share other hother
    · exact hshare
  length := by
    rw [MemoryStore.setShard, List.length_set]
    exact h.length

theorem bytes_touch (shard : Shard) (tick : Nat) (key : CacheKey) :
    (shard.touch tick key).bytes = shard.bytes := by
  unfold Shard.touch
  split <;> rfl

theorem bytes_remove_le (shard : Shard) (key : CacheKey) :
    (shard.remove key).bytes ≤ shard.bytes := by
  unfold Shard.remove
  split
  · exact Nat.sub_le _ _
  · exact le_rfl

/-- A call on the store. -/
inductive Call where
  | get (key : CacheKey)
  | put (key : CacheKey) (entry : CacheEntry)
  | remove (key : CacheKey)
  deriving DecidableEq

/-- What a call leaves. -/
def step (process : Process) (store : MemoryStore) : Call → MemoryStore
  | .get key => (store.get process key).2
  | .put key entry => store.put process key entry
  | .remove key => store.remove process key

def run (process : Process) (store : MemoryStore) (calls : List Call) : MemoryStore :=
  calls.foldl (step process) store

theorem limits_step (store : MemoryStore) (call : Call) :
    (store.step process call).limits = store.limits := by
  cases call with
  | get key => rfl
  | put key entry =>
    simp only [step, put, putAt]
    split <;> rfl
  | remove key => rfl

theorem limits_run (store : MemoryStore) (calls : List Call) :
    (store.run process calls).limits = store.limits := by
  induction calls generalizing store with
  | nil => rfl
  | cons call calls ih => exact (ih _).trans (limits_step store call)

theorem Balanced.draw (h : store.Balanced process.layout) : store.draw.Balanced process.layout :=
  ⟨h.shards, h.share, h.length⟩

theorem Balanced.getAt (h : store.Balanced process.layout) (tick : Nat) (key : CacheKey) :
    (store.getAt process tick key).Balanced process.layout := by
  have hmem := shardOf_mem process store key
  exact h.setShard key ((h.shards _ hmem).touch tick key)
    ((bytes_touch _ _ _).trans_le (h.share _ hmem))

theorem Balanced.remove (h : store.Balanced process.layout) (key : CacheKey) :
    (store.remove process key).Balanced process.layout := by
  have hmem := shardOf_mem process store key
  exact h.setShard key ((h.shards _ hmem).remove key)
    ((bytes_remove_le _ _).trans (h.share _ hmem))

theorem Balanced.putAt (h : store.Balanced process.layout) (tick : Nat) (key : CacheKey)
    (entry : CacheEntry) : (store.putAt process tick key entry).Balanced process.layout := by
  rw [MemoryStore.putAt]
  split_ifs
  · exact h.remove key
  · have hinserted := (h.shards _ (shardOf_mem process store key)).insert tick key entry
    have hset := h.setShard key (hinserted.purge store.limits)
      (hinserted.bytes_purge_le store.limits)
    exact ⟨hset.shards, hset.share, hset.length⟩

/-- **One call keeps the books.** -/
theorem Balanced.step (h : store.Balanced process.layout) (call : Call) :
    (store.step process call).Balanced process.layout := by
  cases call with
  | get key => exact h.draw.getAt store.nextTick key
  | put key entry => exact h.draw.putAt store.nextTick key entry
  | remove key => exact h.remove key

theorem balanced_run (limits : MemoryLimits) (calls : List Call) :
    ((withLimits limits).run process calls).Balanced process.layout := by
  apply List.foldlRecOn
  · exact balanced_withLimits limits
  · exact fun store h call _ => h.step call

/-- A share that was rounded up to one byte stays unused. -/
theorem Balanced.bytes_le_div (h : store.Balanced process.layout) (hsized : process.layout.Sized)
    {shard : Shard} (hshard : shard ∈ store.shards) :
    shard.bytes ≤ store.limits.maxBytes / store.shards.length := by
  have hshare := h.share shard hshard
  rw [MemoryLimits.perShard, ← h.length] at hshare
  rcases (h.shards shard hshard).bytes_eq_zero_or hsized with hzero | hmore
  · rw [hzero]
    exact Nat.zero_le _
  · exact (le_max_iff.mp hshare).resolve_right (by omega)

theorem Balanced.total_le (h : store.Balanced process.layout) (hsized : process.layout.Sized) :
    (store.shards.map Shard.bytes).sum ≤ store.limits.maxBytes := by
  have hsum : (store.shards.map Shard.bytes).sum ≤
      store.shards.length * (store.limits.maxBytes / store.shards.length) := by
    have hcard := List.sum_le_card_nsmul (store.shards.map Shard.bytes)
      (store.limits.maxBytes / store.shards.length) fun bytes hbytes => by
        obtain ⟨shard, hshard, rfl⟩ := List.mem_map.mp hbytes
        exact h.bytes_le_div hsized hshard
    rwa [List.length_map, nsmul_eq_mul, Nat.cast_id] at hcard
  exact hsum.trans (Nat.mul_div_le _ _)

/-- **The books balance.** In every store that calls reach from an empty one, under any limits:
in every shard the counter is the sum of the records' sizes, each record's size is the key's and
the variants' together, no record is empty and no two of its variants have equal selectors; and
all shards together are within the budget. -/
theorem run_balanced (process : Process) (hsized : process.layout.Sized) (limits : MemoryLimits)
    (calls : List Call) :
    let store := (withLimits limits).run process calls
    (∀ shard ∈ store.shards,
      shard.bytes = shard.records.sumOf Record.bytes ∧
      ∀ key record, shard.records.lookup key = some record →
        record.bytes = key.size process.layout +
          (record.variants.map (·.size process.layout)).sum ∧
        record.variants ≠ [] ∧
        record.variants.Pairwise fun a b => a.selector ≠ b.selector) ∧
    (store.shards.map Shard.bytes).sum ≤ limits.maxBytes := by
  intro store
  have h : store.Balanced process.layout := balanced_run limits calls
  refine ⟨fun shard hshard => ?_, ?_⟩
  · have hbalanced := h.shards shard hshard
    refine ⟨hbalanced.bytes, fun key record hlookup => ?_⟩
    have hrecord := hbalanced.record key record hlookup
    exact ⟨hrecord.bytes, hrecord.ne_nil, List.pairwise_map.mp hrecord.selectors⟩
  · have htotal := h.total_le hsized
    have hlimits : store.limits = (withLimits limits).limits := limits_run _ calls
    rwa [hlimits] at htotal

/-- A budget smaller than the number of shards; and one for two records, the first of which is
replaced, and the third of which makes both go. -/
theorem starved_store_balanced :
    let process : Process := ⟨fun key => key.target.length, ⟨40, 200⟩⟩
    let entry : CacheEntry := ⟨200, .http11, [], List.replicate 200 0, Selector.any, 0, 0⟩
    let calls : List Call := [.put ⟨.get, "/a".toList⟩ entry, .get ⟨.get, "/a".toList⟩,
      .put ⟨.get, "/a".toList⟩ entry, .put ⟨.get, "/b".toList⟩ entry,
      .put ⟨.get, "/c".toList⟩ entry, .remove ⟨.get, "/a".toList⟩]
    let starved := (withLimits ⟨2, 3⟩).run process calls
    let store := (withLimits ⟨1000, 1⟩).run process calls
    process.layout.Sized ∧ (starved.shards.map Shard.bytes).sum ≤ 2 ∧
      store.shards.map (fun shard => shard.records.keys) = [[⟨.get, "/c".toList⟩]] ∧
        ∀ shard ∈ store.shards, shard.bytes = shard.records.sumOf Record.bytes :=
  ⟨by decide, (run_balanced _ (by decide) ⟨2, 3⟩ _).2, by decide +kernel, fun shard hshard =>
    ((run_balanced _ (by decide) ⟨1000, 1⟩ _).1 shard hshard).1⟩

end MemoryStore

end Chromulate.Cache
