import Chromulate.Cache.Accounting
import Chromulate.Cache.Exchange

/-!
# Which variant is found

A key's variants stand in the order they were last put, and `put` replaces by equality of
selectors. Two selectors can differ and both match one request, when the origin changed its
`Vary` in between, and then `select` looks from the wrong end: it takes the first match, which is
the one put longest ago.

**Theorem (`select_newest_iff`).** As long as the key is not dropped, the variant found is the
newest that matches if and only if all the entries put under the key that match have the same
selector. **`changed_vary_finds_older`** is a history in which they do not.
-/

namespace Chromulate.Cache

namespace MemoryStore

variable {process : Process} {store : MemoryStore} {key k : CacheKey}

/-! ## What a call leaves of a key -/

theorem variantsAt_purge (shard : Shard) (limits : MemoryLimits) (key : CacheKey) :
    (shard.purge limits).variantsAt key = [] ∨
      (shard.purge limits).variantsAt key = shard.variantsAt key := by
  unfold Shard.purge
  split
  · exact Or.inr rfl
  · unfold Shard.variantsAt
    rw [Table.lookup_retain]
    cases shard.records.lookup key with
    | none => exact Or.inl rfl
    | some record =>
      rw [Option.filter_some]
      split_ifs
      · exact Or.inr rfl
      · exact Or.inl rfl

/-- The entry a call puts under a key. -/
def Call.putUnder (key : CacheKey) : Call → Option CacheEntry
  | .put k entry => if k = key then some entry else none
  | _ => none

/-- **A call drops the key's variants, or adds the entry it puts there.** -/
theorem variantsAt_step (process : Process) (store : MemoryStore) (call : Call) (key : CacheKey) :
    (store.step process call).variantsAt process key = [] ∨
      (store.step process call).variantsAt process key =
        ((call.putUnder key).map (mergeVariants (store.variantsAt process key))).getD
          (store.variantsAt process key) := by
  cases call with
  | get k => exact Or.inr variantsAt_get
  | remove k =>
    show (store.remove process k).variantsAt process key = [] ∨
      (store.remove process k).variantsAt process key = store.variantsAt process key
    rw [variantsAt_remove]
    split_ifs
    · exact Or.inl rfl
    · exact Or.inr rfl
  | put k entry =>
    simp only [step, put, putAt, Call.putUnder]
    split
    · -- Refused: the key that was put is dropped, and no other.
      show (store.setShard process k _).variantsAt process key = [] ∨
        (store.setShard process k _).variantsAt process key = _
      rw [variantsAt_setShard, Shard.variantsAt_remove]
      by_cases hk : key = k
      · subst hk
        simp
      · rw [if_neg hk, if_neg (Ne.symm hk)]
        split_ifs with hidx
        · exact Or.inr (variantsAt_of_index_eq hidx)
        · exact Or.inr rfl
    · show (store.setShard process k _).variantsAt process key = [] ∨
        (store.setShard process k _).variantsAt process key = _
      rw [variantsAt_setShard]
      by_cases hk : key = k
      · subst hk
        rw [if_pos rfl, if_pos rfl]
        refine (variantsAt_purge _ _ _).imp_right fun h => ?_
        rw [h, Shard.variantsAt_insert, if_pos rfl]
        rfl
      · rw [if_neg (Ne.symm hk)]
        split_ifs with hidx
        · refine (variantsAt_purge _ _ _).imp_right fun h => ?_
          rw [h, Shard.variantsAt_insert, if_neg hk]
          exact variantsAt_of_index_eq hidx
        · exact Or.inr rfl

/-! ## Histories that keep a key -/

/-- The entries put under a key, in order. -/
def puts (key : CacheKey) (calls : List Call) : List CacheEntry :=
  calls.filterMap (Call.putUnder key)

/-- A call after which nothing is left of a key that was there or is put there: a removal, a
purge or a refused `put`. -/
def drops (process : Process) (key : CacheKey) (store : MemoryStore) (call : Call) : Bool :=
  (store.step process call).variantsAt process key = [] &&
    (store.variantsAt process key ≠ [] || (call.putUnder key).isSome)

/-- No call of the history drops the key. -/
def keeps (process : Process) (key : CacheKey) : MemoryStore → List Call → Bool
  | _, [] => true
  | store, call :: calls =>
    !store.drops process key call && keeps process key (store.step process call) calls

theorem variantsAt_step_of_not_drops {call : Call} (h : store.drops process key call = false) :
    (store.step process call).variantsAt process key =
      ((call.putUnder key).map (mergeVariants (store.variantsAt process key))).getD
        (store.variantsAt process key) := by
  rcases variantsAt_step process store call key with hnil | hstep
  · simp only [drops, hnil, decide_true, Bool.true_and, Bool.or_eq_false_iff, ne_eq,
      decide_not, Bool.not_eq_false', decide_eq_true_eq] at h
    have hput : call.putUnder key = none := by simpa using h.2
    rw [hnil, hput, h.1]
    rfl
  · exact hstep

/-- **A kept key holds its history**, one entry for each selector. -/
theorem variantsAt_run {calls : List Call} (before : List CacheEntry)
    (hstore : store.variantsAt process key = Recency.ofList CacheEntry.selector before)
    (hkeeps : keeps process key store calls) :
    (store.run process calls).variantsAt process key =
      Recency.ofList CacheEntry.selector (before ++ puts key calls) := by
  induction calls generalizing store before with
  | nil => simpa [run, puts] using hstore
  | cons call calls ih =>
    simp only [keeps, Bool.and_eq_true, Bool.not_eq_true'] at hkeeps
    have hstep := variantsAt_step_of_not_drops hkeeps.1
    show ((store.step process call).run process calls).variantsAt process key = _
    cases hput : call.putUnder key with
    | none =>
      rw [hput] at hstep
      rw [ih before (hstep.trans hstore) hkeeps.2, puts, puts, List.filterMap_cons_none hput]
    | some entry =>
      rw [hput] at hstep
      have hmerged : (store.step process call).variantsAt process key =
          Recency.ofList CacheEntry.selector (before ++ [entry]) := by
        rw [hstep, hstore, Recency.ofList_concat]
        rfl
      rw [ih _ hmerged hkeeps.2, puts, puts, List.filterMap_cons_some hput,
        List.append_assoc]
      rfl

end MemoryStore

/-! ## The variant found -/

open MemoryStore

/-- The most recent of a history among the stored entries that match. -/
def newestMatch (history stored : List CacheEntry) (request : HeaderMap) : Option CacheEntry :=
  (history.filter fun entry =>
    decide (entry ∈ stored) && entry.selector.matchesRequest request).getLast?

theorem newestMatch_ofList (history : List CacheEntry) (request : HeaderMap) :
    newestMatch history (Recency.ofList CacheEntry.selector history) request =
      ((Recency.ofList CacheEntry.selector history).filter fun entry =>
        entry.selector.matchesRequest request).getLast? := by
  set stored := Recency.ofList CacheEntry.selector history
  set ms := history.filter fun entry => entry.selector.matchesRequest request
  have hlast : (stored.filter fun entry => entry.selector.matchesRequest request).getLast? =
      ms.getLast? :=
    Recency.getLast?_filter_ofList
      (fun selector : Selector => selector.matchesRequest request) history
  rw [hlast]
  have hsplit : newestMatch history stored request =
      (ms.filter fun entry => decide (entry ∈ stored)).getLast? := by
    rw [newestMatch, List.filter_filter]
  rw [hsplit]
  rcases List.eq_nil_or_concat ms with hnil | ⟨front, last, hms⟩
  · rw [hnil, List.filter_nil]
  · rw [List.concat_eq_append] at hms
    have hmem : last ∈ stored := by
      rw [hms, List.getLast?_concat] at hlast
      exact List.mem_of_mem_filter (List.mem_of_getLast? hlast)
    rw [hms, List.filter_append, List.filter_cons_of_pos (by simpa using hmem), List.filter_nil,
      List.getLast?_concat, List.getLast?_concat]

/-- **The newest match is found** if and only if the entries put under the key that match all have
one selector. -/
theorem select_newest_iff (env : Env) (limits : MemoryLimits) (config : CacheConfig)
    (calls : List MemoryStore.Call) (key : CacheKey) (request : HeaderMap)
    (hkeeps : keeps env.process key (withLimits limits) calls) :
    let cache : HttpCache := ⟨(withLimits limits).run env.process calls, config⟩
    let stored := cache.storage.variantsAt env.process key
    let found := (cache.select env key request).1
    (found = newestMatch (puts key calls) stored request ∧
      (found = none → ∀ entry ∈ stored, ¬ entry.selector.matchesRequest request)) ↔
    ∀ a ∈ puts key calls, ∀ b ∈ puts key calls, a.selector.matchesRequest request →
      b.selector.matchesRequest request → a.selector = b.selector := by
  intro cache stored found
  have hstored : stored = Recency.ofList CacheEntry.selector (puts key calls) :=
    variantsAt_run [] (variantsAt_withLimits limits) hkeeps
  have hfound : found =
      (stored.filter fun entry => entry.selector.matchesRequest request).head? :=
    List.head?_filter.symm
  have hnone : found = none → ∀ entry ∈ stored, ¬ entry.selector.matchesRequest request := by
    intro h entry hentry
    exact List.find?_eq_none.mp h entry hentry
  rw [and_iff_left hnone, hfound, hstored, newestMatch_ofList]
  exact Recency.head?_eq_getLast?_iff (fun selector : Selector => selector.matchesRequest request) _

/-- The key of the two histories below. -/
def CacheKey.home : CacheKey := ⟨.get, "https://example.com/".toList⟩

/-- A `200` with a one-byte body, selected by a request's `Accept-Encoding` or by nothing. -/
def encodedEntry (names : List HeaderName) (coding : String) (body : UInt8) : CacheEntry where
  status := 200
  version := .http11
  headers := []
  body := [body]
  selector := Selector.of names [(.acceptEncoding, .fromStatic coding)]
  requestedAt := 0
  receivedAt := 0

/-- An origin that keeps its `Vary`: each coding has its variant, and the newer copy of one
replaces the older. -/
theorem steady_vary_finds_newest :
    let calls : List MemoryStore.Call := [.put .home (encodedEntry [.acceptEncoding] "gzip" 1),
      .put .home (encodedEntry [.acceptEncoding] "br" 2),
      .put .home (encodedEntry [.acceptEncoding] "gzip" 3)]
    let request : HeaderMap := [(.acceptEncoding, .fromStatic "gzip")]
    let cache : HttpCache :=
      ⟨(withLimits .default).run Env.simple.process calls, .default⟩
    (cache.select .simple .home request).1 =
      newestMatch (puts .home calls) (cache.storage.variantsAt Env.simple.process .home) request :=
  ((select_newest_iff .simple .default .default _ .home _ (by decide)).mpr (by decide)).1

/-- An origin that stops varying: the newer entry matches every request, and the one selected by
`gzip` is found in its place. -/
theorem changed_vary_finds_older :
    let older := encodedEntry [.acceptEncoding] "gzip" 1
    let newer := encodedEntry [] "gzip" 2
    let calls : List MemoryStore.Call := [.put .home older, .put .home newer]
    let request : HeaderMap := [(.acceptEncoding, .fromStatic "gzip")]
    let cache : HttpCache :=
      ⟨(withLimits .default).run Env.simple.process calls, .default⟩
    keeps Env.simple.process .home (withLimits .default) calls ∧
      newestMatch (puts .home calls) (cache.storage.variantsAt Env.simple.process .home) request =
        some newer ∧
      (cache.select .simple .home request).1 = some older ∧ older ≠ newer := by
  decide

end Chromulate.Cache
