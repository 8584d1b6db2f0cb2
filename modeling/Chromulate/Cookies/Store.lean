import Chromulate.Cookies.Bucket
import Mathlib.Data.Char
import Mathlib.Data.List.Lex
import Mathlib.Data.Prod.Lex
import Mathlib.Order.Nat

/-!
# Every cookie in the jar, grouped by site

`Store` of `chromulate-cookie/src/jar.rs`: the buckets by registrable domain, and the running
`total`. `withSite` is the one door to a bucket, as it is in the source.

**Invariant (`Store.WF`).** Every bucket is in step with its index, none is empty, every entry is
filed under the site of its domain, and `total` is the sum of the bucket lengths. Each mutator
keeps it: `Store.WF.withSite`, `Store.WF.tidyEverySite`, `Store.WF.enforceTotal`.

**Eviction (`mem_enforceTotal`).** What `enforce_total` leaves is what its one pass over the jar
did not pick, and nothing it picks ranks above anything it leaves.
-/

namespace Chromulate.Cookies

open PublicSuffix Select

structure Store where
  sites : Table Str Bucket := ∅
  total : Nat := 0

namespace Store

/-- The bucket for a site, or an empty one: `entry(site).or_default()`. -/
def bucketAt (store : Store) (site : Str) : Bucket := (store.sites.lookup site).getD {}

def withSite {ρ : Type} (store : Store) (site : Str) (change : Bucket → Bucket × ρ) :
    Store × ρ :=
  let bucket := store.bucketAt site
  let (changed, outcome) := change bucket
  let sites := store.sites.insert site changed
  ({ sites := if changed.len = 0 then sites.erase site else sites
     total := store.total - bucket.len + changed.len }, outcome)

/-- The entries of one bucket rewritten in place, behind a shared reference. -/
def mapSite (store : Store) (site : Str) (f : Entry → Entry) : Store :=
  match store.sites.lookup site with
  | some b => { store with sites := store.sites.insert site { b with entries := b.entries.map f } }
  | none => store

def recount (store : Store) : Store :=
  { store with total := Table.sumOf Bucket.len store.sites }

def tidyEverySite (select : SelectNth) (store : Store) (now : SystemTime) (perDomain : Nat) :
    Store :=
  let tidied := store.sites.mapValues fun b => (b.removeExpired now).trimTo select perDomain
  recount { store with sites := tidied.retain fun _ b => b.len ≠ 0 }

/-- `EvictionRank`: lower is worse. -/
abbrev EvictionRank := Nat ×ₗ Nat

/-- `rank_for_eviction`: expired entries first, then the least recently used. -/
def rankForEviction (entry : Entry) (now : SystemTime) : EvictionRank :=
  toLex (if entry.cookie.isExpired now then 0 else 1, entry.lastAccessSeq.toNat)

/-- What the heap of `enforce_total` holds: a rank, a site and a position, ordered as tuples. -/
abbrev Candidate := EvictionRank ×ₗ (Str ×ₗ Nat)

def Candidate.site (c : Candidate) : Str := (ofLex (ofLex c).2).1

def Candidate.position (c : Candidate) : Nat := (ofLex (ofLex c).2).2

def candidate (now : SystemTime) (site : Str) (position : Nat) (entry : Entry) : Candidate :=
  toLex (rankForEviction entry now, toLex (site, position))

/-- The scan over every bucket. -/
def candidates (store : Store) (now : SystemTime) : List Candidate :=
  store.sites.entries.flatMap fun p =>
    p.2.entries.zipIdx.map fun q => candidate now p.1 q.2 q.1

/-- The entries `enforce_total` gives up. -/
def worst (store : Store) (now : SystemTime) (target : Nat) : List Candidate :=
  smallest (store.total - target) (store.candidates now)

/-- The victims' positions by site. -/
def victims (worst : List Candidate) : Table Str (List Nat) :=
  worst.foldl (fun table c =>
    table.insert (Candidate.site c)
      ((table.lookup (Candidate.site c)).getD [] ++ [Candidate.position c])) ∅

/-- The loop that removes each site's victims. -/
def removeEach (store : Store) (victims : List (Sigma fun _ : Str => List Nat)) : Store :=
  victims.foldl (fun store v => (store.withSite v.1 fun b => (b.removeAll v.2, ())).1) store

def enforceTotal (store : Store) (now : SystemTime) (cap target : Nat) : Store :=
  if store.total ≤ cap then store else store.removeEach (victims (store.worst now target)).entries

/-! ## Entries -/

/-- An entry is in the store when it is in one of its buckets. -/
instance : Membership Entry Store where
  mem store entry := ∃ site, entry ∈ (store.bucketAt site).entries

variable {e : Entry} {b : Bucket} {now : SystemTime} {cap target : Nat}

theorem mem_of_mem_bucketAt {store : Store} {site : Str} (h : e ∈ (store.bucketAt site).entries) :
    e ∈ store := ⟨site, h⟩

/-- Every entry of the store, bucket by bucket. -/
def allEntries (store : Store) : List Entry := store.sites.values.flatMap Bucket.entries

theorem bucketAt_of_lookup {store : Store} {site : Str} (h : store.sites.lookup site = some b) :
    store.bucketAt site = b := by
  rw [bucketAt, h, Option.getD_some]

theorem lookup_of_mem_bucketAt {store : Store} {site : Str}
    (h : e ∈ (store.bucketAt site).entries) :
    store.sites.lookup site = some (store.bucketAt site) := by
  cases hl : store.sites.lookup site with
  | none => simp [bucketAt, hl] at h
  | some b => rw [bucketAt_of_lookup hl]

theorem mem_allEntries {store : Store} : e ∈ store.allEntries ↔ e ∈ store := by
  unfold allEntries
  rw [List.mem_flatMap]
  constructor
  · rintro ⟨b, hb, he⟩
    obtain ⟨site, hsite⟩ := Table.mem_values.mp hb
    exact ⟨site, by rwa [bucketAt_of_lookup hsite]⟩
  · rintro ⟨site, he⟩
    exact ⟨_, Table.mem_values.mpr ⟨site, lookup_of_mem_bucketAt he⟩, he⟩

/-- The entries of every bucket but one. -/
def otherEntries (store : Store) (site : Str) : List Entry :=
  (Table.values (store.sites.erase site)).flatMap Bucket.entries

theorem allEntries_perm (store : Store) (site : Str) :
    store.allEntries.Perm ((store.bucketAt site).entries ++ store.otherEntries site) := by
  unfold allEntries otherEntries
  cases hl : store.sites.lookup site with
  | none => simp [bucketAt, hl, Table.values, Table.entries_erase_of_lookup_none hl]
  | some b =>
    rw [bucketAt_of_lookup hl]
    have hperm := (Table.entries_perm hl).map Sigma.snd
    exact hperm.flatMap_right Bucket.entries

theorem mem_otherEntries {store : Store} {site k : Str} (hk : k ≠ site)
    (he : e ∈ (store.bucketAt k).entries) : e ∈ store.otherEntries site := by
  unfold otherEntries
  rw [List.mem_flatMap]
  refine ⟨_, Table.mem_values.mpr ⟨k, ?_⟩, he⟩
  rw [AList.lookup_erase_ne hk]
  exact lookup_of_mem_bucketAt he

theorem exists_of_mem_otherEntries {store : Store} {site : Str} (he : e ∈ store.otherEntries site) :
    ∃ k, k ≠ site ∧ e ∈ (store.bucketAt k).entries := by
  obtain ⟨b, hb, he⟩ := List.mem_flatMap.mp he
  obtain ⟨k, hk⟩ := Table.mem_values.mp hb
  obtain ⟨hne, hlookup⟩ := Table.lookup_erase_eq_some.mp hk
  exact ⟨k, hne, by rwa [bucketAt_of_lookup hlookup]⟩

section WithSite

variable {ρ : Type} (store : Store) (site : Str) (change : Bucket → Bucket × ρ)

theorem lookup_withSite (k : Str) :
    (store.withSite site change).1.sites.lookup k =
      if k = site then
        if (change (store.bucketAt site)).1.len = 0 then none
        else some (change (store.bucketAt site)).1
      else store.sites.lookup k := by
  unfold withSite
  by_cases hk : k = site
  · subst hk
    rw [if_pos rfl]
    dsimp only
    split
    · exact AList.lookup_erase k _
    · exact AList.lookup_insert _
  · rw [if_neg hk]
    dsimp only
    split
    · rw [AList.lookup_erase_ne hk, AList.lookup_insert_ne hk]
    · rw [AList.lookup_insert_ne hk]

@[simp] theorem entries_withSite_self :
    ((store.withSite site change).1.bucketAt site).entries =
      (change (store.bucketAt site)).1.entries := by
  unfold bucketAt
  rw [lookup_withSite, if_pos rfl]
  split_ifs with hlen
  · exact (List.length_eq_zero_iff.mp hlen).symm
  · rfl

theorem bucketAt_withSite_ne {k : Str} (hk : k ≠ site) :
    (store.withSite site change).1.bucketAt k = store.bucketAt k := by
  rw [bucketAt, lookup_withSite, if_neg hk, bucketAt]

/-- What `withSite` leaves: the changed bucket's entries, and every other bucket's. -/
theorem mem_withSite {e : Entry} :
    e ∈ (store.withSite site change).1 ↔
      e ∈ (change (store.bucketAt site)).1.entries ∨
        ∃ k, k ≠ site ∧ e ∈ (store.bucketAt k).entries := by
  constructor
  · rintro ⟨k, he⟩
    by_cases hk : k = site
    · subst hk
      rw [entries_withSite_self] at he
      exact Or.inl he
    · rw [bucketAt_withSite_ne _ _ _ hk] at he
      exact Or.inr ⟨k, hk, he⟩
  · rintro (he | ⟨k, hk, he⟩)
    · exact ⟨site, by rwa [entries_withSite_self]⟩
    · exact ⟨k, by rwa [bucketAt_withSite_ne _ _ _ hk]⟩

end WithSite

theorem lookup_mapSite (store : Store) (site : Str) (f : Entry → Entry) (k : Str) :
    (store.mapSite site f).sites.lookup k =
      if k = site then
        (store.sites.lookup site).map fun b => { b with entries := b.entries.map f }
      else store.sites.lookup k := by
  unfold mapSite
  by_cases hk : k = site
  · subst hk
    rw [if_pos rfl]
    split <;> simp_all
  · rw [if_neg hk]
    split
    · exact AList.lookup_insert_ne hk
    · rfl

theorem entries_mapSite (store : Store) (site : Str) (f : Entry → Entry) (k : Str) :
    ((store.mapSite site f).bucketAt k).entries =
      if k = site then (store.bucketAt site).entries.map f else (store.bucketAt k).entries := by
  unfold bucketAt
  rw [lookup_mapSite]
  split
  · cases store.sites.lookup site <;> rfl
  · rfl

/-! ## The invariant -/

variable (rules : List (Rule Str))

/-- `bucket` may stand under `site`: its index is in step, and its entries belong to the site. -/
structure Fits (site : Str) (bucket : Bucket) : Prop where
  wf : bucket.WF
  filed : ∀ e ∈ bucket.entries, siteOf rules e.cookie.domain = site

/-- The store's invariant. -/
structure WF (store : Store) : Prop where
  fits : ∀ site b, store.sites.lookup site = some b → Fits rules site b
  nonempty : ∀ site b, store.sites.lookup site = some b → b.entries ≠ []
  total_eq : store.total = Table.sumOf Bucket.len store.sites

variable {rules} {store : Store}

theorem fits_empty (site : Str) : Fits rules site {} := ⟨Bucket.wf_empty, by simp⟩

theorem wf_empty : WF rules {} := ⟨by simp, by simp, rfl⟩

theorem WF.fits_bucketAt (h : store.WF rules) (site : Str) :
    Fits rules site (store.bucketAt site) := by
  cases hl : store.sites.lookup site with
  | none => rw [bucketAt, hl]; exact fits_empty site
  | some b => rw [bucketAt_of_lookup hl]; exact h.fits site b hl

/-- An entry is found in the bucket of its own site and in no other. -/
theorem WF.mem_iff (h : store.WF rules) :
    e ∈ store ↔ e ∈ (store.bucketAt (siteOf rules e.cookie.domain)).entries := by
  constructor
  · rintro ⟨site, he⟩
    rwa [(h.fits_bucketAt site).filed e he]
  · exact mem_of_mem_bucketAt

/-- **One entry an identity**, in the whole store. -/
theorem WF.nodup (h : store.WF rules) : (store.allEntries.map Entry.identity).Nodup := by
  have hmap : store.allEntries.map Entry.identity =
      store.sites.values.flatMap fun b => b.entries.map Entry.identity := by
    simp [allEntries, List.map_flatMap]
  rw [hmap]
  apply Table.nodup_flatMap fun id : Identity => siteOf rules id.2.1
  · intro p hp id hid
    obtain ⟨e, he, rfl⟩ := List.mem_map.mp hid
    exact (h.fits p.1 p.2 (AList.mem_lookup_iff.mpr hp)).filed e he
  · intro p hp
    exact (h.fits p.1 p.2 (AList.mem_lookup_iff.mpr hp)).wf.nodup

/-- The counter moves by the change in the one bucket. -/
theorem total_withSite {ρ : Type} (h : store.total = Table.sumOf Bucket.len store.sites)
    (site : Str) (change : Bucket → Bucket × ρ) :
    (store.withSite site change).1.total =
      Table.sumOf Bucket.len (store.withSite site change).1.sites := by
  have hbefore : store.total =
      (store.bucketAt site).len + Table.sumOf Bucket.len (store.sites.erase site) := by
    rw [h]
    cases hl : store.sites.lookup site with
    | none =>
      rw [Table.sumOf_erase_of_lookup_none hl, bucketAt, hl]
      simp [Bucket.len]
    | some b => rw [bucketAt_of_lookup hl, Table.sumOf_eq_of_lookup hl]
  have hafter : Table.sumOf Bucket.len (store.withSite site change).1.sites =
      (change (store.bucketAt site)).1.len + Table.sumOf Bucket.len (store.sites.erase site) := by
    unfold withSite
    dsimp only
    split
    · rename_i hzero
      rw [hzero, Table.erase_insert, Nat.zero_add]
    · rw [Table.sumOf_insert]
  have htotal : (store.withSite site change).1.total =
      store.total - (store.bucketAt site).len + (change (store.bucketAt site)).1.len := rfl
  omega

/-- **A change that keeps one bucket sound keeps the store sound.** -/
theorem WF.withSite {ρ : Type} (h : store.WF rules) {site : Str} {change : Bucket → Bucket × ρ}
    (hchange : Fits rules site (store.bucketAt site) →
      Fits rules site (change (store.bucketAt site)).1) :
    (store.withSite site change).1.WF rules := by
  refine ⟨?_, ?_, total_withSite h.total_eq site change⟩
  · intro k b hb
    rw [lookup_withSite] at hb
    split_ifs at hb with hk
    · cases hb
      exact hk ▸ hchange (h.fits_bucketAt site)
    · exact h.fits k b hb
  · intro k b hb
    rw [lookup_withSite] at hb
    split_ifs at hb with hk hlen
    · cases hb
      exact fun hnil => hlen (by rw [Bucket.len, hnil]; rfl)
    · exact h.nonempty k b hb

/-- Rewriting entries in place keeps the store sound when it keeps their cookies. -/
theorem WF.mapSite (h : store.WF rules) (site : Str) {f : Entry → Entry}
    (hf : ∀ e, (f e).cookie = e.cookie) : (store.mapSite site f).WF rules := by
  have hid : ∀ e, (f e).identity = e.identity := fun e => by rw [Entry.identity, hf, Entry.identity]
  refine ⟨?_, ?_, ?_⟩
  · intro k b hb
    rw [lookup_mapSite] at hb
    split_ifs at hb with hk
    · obtain ⟨b₀, hb₀, rfl⟩ := Option.map_eq_some_iff.mp hb
      obtain ⟨hwf, hfiled⟩ := h.fits site b₀ hb₀
      refine ⟨Indexed.IndexedBy.map hwf hid, fun e he => ?_⟩
      obtain ⟨e₀, he₀, rfl⟩ := List.mem_map.mp he
      rw [hf, hk]
      exact hfiled e₀ he₀
    · exact h.fits k b hb
  · intro k b hb
    rw [lookup_mapSite] at hb
    split_ifs at hb with hk
    · obtain ⟨b₀, hb₀, rfl⟩ := Option.map_eq_some_iff.mp hb
      simpa using h.nonempty site b₀ hb₀
    · exact h.nonempty k b hb
  · unfold Store.mapSite
    split
    · rename_i b hb
      rw [h.total_eq, Table.sumOf_insert, Table.sumOf_eq_of_lookup hb]
      simp [Bucket.len]
    · exact h.total_eq

theorem Fits.sublist {site : Str} {b' : Bucket} (h : Fits rules site b) (hwf : b'.WF)
    (hsub : ∀ e ∈ b'.entries, e ∈ b.entries) : Fits rules site b' :=
  ⟨hwf, fun e he => h.filed e (hsub e he)⟩

theorem Fits.removeAll {site : Str} (h : Fits rules site b) (positions : List Nat) :
    Fits rules site (b.removeAll positions) :=
  h.sublist (h.wf.removeAll positions) fun _ he => (b.removeAll_sublist positions).subset he

theorem Fits.tidy {site : Str} (h : Fits rules site b) (select : SelectNth) (now : SystemTime)
    (keep : Nat) : Fits rules site ((b.removeExpired now).trimTo select keep) := by
  refine h.sublist ((h.wf.removeExpired now).trimTo select keep) fun e he => ?_
  have hmem := (Bucket.trimTo_sublist select (b.removeExpired now) keep).subset he
  rw [Bucket.entries_removeExpired] at hmem
  exact List.mem_of_mem_filter hmem

theorem lookup_tidyEverySite (select : SelectNth) (store : Store) (now : SystemTime)
    (perDomain : Nat) (site : Str) :
    (store.tidyEverySite select now perDomain).sites.lookup site =
      ((store.sites.lookup site).map fun b => (b.removeExpired now).trimTo select perDomain).filter
        fun b => b.len ≠ 0 := by
  unfold tidyEverySite recount
  simp

theorem entries_tidyEverySite (select : SelectNth) (store : Store) (now : SystemTime)
    (perDomain : Nat) (site : Str) :
    ((store.tidyEverySite select now perDomain).bucketAt site).entries =
      (((store.bucketAt site).removeExpired now).trimTo select perDomain).entries := by
  rw [bucketAt, lookup_tidyEverySite, bucketAt]
  cases store.sites.lookup site with
  | none => simp [Bucket.removeExpired, Bucket.trimTo, Bucket.len]
  | some b =>
    rw [Option.map_some, Option.getD_some]
    by_cases hlen : ((b.removeExpired now).trimTo select perDomain).len = 0
    · rw [List.length_eq_zero_iff.mp hlen]
      simp [Option.filter, hlen]
    · simp [Option.filter, hlen]

theorem WF.tidyEverySite (h : store.WF rules) (select : SelectNth) (now : SystemTime)
    (perDomain : Nat) : (store.tidyEverySite select now perDomain).WF rules := by
  refine ⟨?_, ?_, rfl⟩ <;> intro site b hb <;> rw [lookup_tidyEverySite] at hb <;>
    obtain ⟨hb, hlen⟩ := Option.filter_eq_some_iff.mp hb <;>
    obtain ⟨b₀, hb₀, rfl⟩ := Option.map_eq_some_iff.mp hb
  · exact (h.fits site b₀ hb₀).tidy select now perDomain
  · intro hnil
    simp [Bucket.len, hnil] at hlen

theorem WF.removeEach (h : store.WF rules) (victims : List (Sigma fun _ : Str => List Nat)) :
    (store.removeEach victims).WF rules := by
  unfold Store.removeEach
  induction victims generalizing store with
  | nil => exact h
  | cons v victims ih => exact ih (h.withSite fun hfits => hfits.removeAll v.2)

theorem WF.enforceTotal (h : store.WF rules) (now : SystemTime) (cap target : Nat) :
    (store.enforceTotal now cap target).WF rules := by
  unfold Store.enforceTotal
  split
  · exact h
  · exact h.removeEach _

/-! ## What is left behind -/

theorem mem_tidyEverySite {select : SelectNth} {perDomain : Nat}
    (he : e ∈ store.tidyEverySite select now perDomain) : e ∈ store := by
  obtain ⟨site, he⟩ := he
  rw [entries_tidyEverySite] at he
  have hmem := (Bucket.trimTo_sublist _ _ _).subset he
  rw [Bucket.entries_removeExpired] at hmem
  exact ⟨site, List.mem_of_mem_filter hmem⟩

/-- The entries left at a site are those at no position listed for it. -/
theorem mem_removeEach {victims : List (Sigma fun _ : Str => List Nat)} (hnd : victims.NodupKeys)
    {site : Str} :
    e ∈ ((store.removeEach victims).bucketAt site).entries ↔
      ∃ i, (store.bucketAt site).get i = some e ∧ ∀ ps, ⟨site, ps⟩ ∈ victims → i ∉ ps := by
  unfold removeEach
  induction victims generalizing store with
  | nil => simp [Bucket.get, List.mem_iff_getElem?]
  | cons v victims ih =>
    obtain ⟨hfirst, hrest⟩ := List.nodupKeys_cons.mp hnd
    rw [List.foldl_cons, ih hrest]
    by_cases hsite : site = v.1
    · -- Each site is listed once, so the rest of the loop does not come back to this one.
      subst hsite
      have hnone : ∀ ps, (⟨v.1, ps⟩ : Sigma fun _ : Str => List Nat) ∉ victims :=
        fun ps hps => hfirst (List.mem_keys.mpr ⟨ps, hps⟩)
      have hleft : (∃ i, ((store.withSite v.1 fun b => (b.removeAll v.2, ())).1.bucketAt
          v.1).get i = some e) ↔ ∃ i, (store.bucketAt v.1).get i = some e ∧ i ∉ v.2 := by
        rw [← Bucket.mem_removeAll]
        unfold Bucket.get
        rw [← List.mem_iff_getElem?, entries_withSite_self]
      constructor
      · rintro ⟨i, hi, -⟩
        obtain ⟨j, hj, hjv⟩ := hleft.mp ⟨i, hi⟩
        refine ⟨j, hj, fun ps hps => ?_⟩
        rcases List.mem_cons.mp hps with heq | hps
        · cases v
          cases heq
          exact hjv
        · exact absurd hps (hnone ps)
      · rintro ⟨i, hi, hlisted⟩
        obtain ⟨j, hj⟩ := hleft.mpr ⟨i, hi, hlisted v.2 List.mem_cons_self⟩
        exact ⟨j, hj, fun ps hps => absurd hps (hnone ps)⟩
    · rw [bucketAt_withSite_ne _ _ _ hsite]
      have hskip : ∀ ps, (⟨site, ps⟩ : Sigma fun _ : Str => List Nat) ∈ v :: victims ↔
          ⟨site, ps⟩ ∈ victims := by
        intro ps
        rw [List.mem_cons, or_iff_right]
        rintro rfl
        exact hsite rfl
      simp only [hskip]

/-- A position is listed for a site when some candidate names both. -/
theorem mem_victims {worst : List Candidate} {site : Str} {i : Nat} :
    (∃ ps, (victims worst).lookup site = some ps ∧ i ∈ ps) ↔
      ∃ c ∈ worst, Candidate.site c = site ∧ Candidate.position c = i := by
  have hfold : ∀ (l : List Candidate) (table : Table Str (List Nat)),
      (∃ ps, (l.foldl (fun table c => table.insert (Candidate.site c)
          ((table.lookup (Candidate.site c)).getD [] ++ [Candidate.position c]))
          table).lookup site = some ps ∧ i ∈ ps) ↔
        (∃ ps, table.lookup site = some ps ∧ i ∈ ps) ∨
          ∃ c ∈ l, Candidate.site c = site ∧ Candidate.position c = i := by
    intro l
    induction l with
    | nil => simp
    | cons c l ih =>
      intro table
      rw [List.foldl_cons, ih]
      by_cases hs : site = Candidate.site c
      · subst hs
        rw [AList.lookup_insert]
        cases hl : table.lookup (Candidate.site c) <;> simp [or_assoc, eq_comm]
      · rw [AList.lookup_insert_ne hs]
        simp [Ne.symm hs]
  simpa [victims] using hfold worst ∅

theorem mem_candidates {c : Candidate} :
    c ∈ store.candidates now ↔
      ∃ site i e, (store.bucketAt site).get i = some e ∧ c = candidate now site i e := by
  unfold candidates
  simp only [List.mem_flatMap, List.mem_map, List.mem_zipIdx_iff_getElem?, Prod.exists]
  constructor
  · rintro ⟨p, hp, e, i, he, rfl⟩
    refine ⟨p.1, i, e, ?_, rfl⟩
    rw [bucketAt_of_lookup (AList.mem_lookup_iff.mpr hp)]
    exact he
  · rintro ⟨site, i, e, he, rfl⟩
    have hl := lookup_of_mem_bucketAt (List.mem_of_getElem? he)
    exact ⟨⟨site, store.bucketAt site⟩, AList.mem_lookup_iff.mp hl, e, i, he, rfl⟩

/-- **What eviction leaves**: above the cap, the entries the scan did not pick. -/
theorem mem_enforceTotal {site : Str} :
    e ∈ ((store.enforceTotal now cap target).bucketAt site).entries ↔
      ∃ i, (store.bucketAt site).get i = some e ∧
        (cap < store.total → candidate now site i e ∉ store.worst now target) := by
  unfold enforceTotal
  split
  · rename_i hle
    simp [Bucket.get, List.mem_iff_getElem?, Nat.not_lt.mpr hle]
  · rename_i hover
    rw [mem_removeEach (victims _).nodupKeys]
    refine exists_congr fun i => and_congr_right fun hi => ?_
    -- The rank of a candidate is that of the entry at its position.
    have hlisted : (∃ ps, ⟨site, ps⟩ ∈ (victims (store.worst now target)).entries ∧ i ∈ ps) ↔
        candidate now site i e ∈ store.worst now target := by
      have hlookup : (∃ ps, (victims (store.worst now target)).lookup site = some ps ∧ i ∈ ps) ↔
          _ := mem_victims
      simp only [show ∀ ps, (victims (store.worst now target)).lookup site = some ps ↔
        ⟨site, ps⟩ ∈ (victims (store.worst now target)).entries from
          fun ps => AList.mem_lookup_iff] at hlookup
      rw [hlookup]
      constructor
      · rintro ⟨c, hc, hsite, hpos⟩
        obtain ⟨site', j, e', he', rfl⟩ := mem_candidates.mp (smallest_subset _ _ hc)
        cases hsite
        cases hpos
        cases Option.some.inj (hi.symm.trans he')
        exact hc
      · exact fun h => ⟨_, h, rfl, rfl⟩
    rw [← hlisted]
    constructor
    · rintro h - ⟨ps, hps, hmem⟩
      exact h ps hps hmem
    · exact fun h ps hps hmem => h (Nat.not_le.mp hover) ⟨ps, hps, hmem⟩

theorem mem_of_mem_enforceTotal (he : e ∈ store.enforceTotal now cap target) : e ∈ store := by
  obtain ⟨site, he⟩ := he
  obtain ⟨i, hi, -⟩ := mem_enforceTotal.mp he
  exact ⟨site, List.mem_of_getElem? hi⟩

/-- **Eviction is worst first**: nothing it drops ranks above anything it leaves. -/
theorem rank_le_of_enforceTotal {s : Entry} (he : e ∈ store)
    (hgone : e ∉ store.enforceTotal now cap target) (hs : s ∈ store.enforceTotal now cap target) :
    rankForEviction e now ≤ rankForEviction s now := by
  obtain ⟨site, he⟩ := he
  obtain ⟨i, hi⟩ := List.mem_iff_getElem?.mp he
  obtain ⟨site', hs⟩ := hs
  obtain ⟨j, hj, hkept⟩ := mem_enforceTotal.mp hs
  have hpicked : cap < store.total ∧ candidate now site i e ∈ store.worst now target := by
    by_contra hnot
    apply hgone
    refine ⟨site, mem_enforceTotal.mpr ⟨i, hi, fun hover hmem => hnot ⟨hover, hmem⟩⟩⟩
  obtain ⟨rest, hperm, hle, -⟩ :=
    smallest_spec (store.total - target) (store.candidates now)
  have hjcand : candidate now site' j s ∈ store.candidates now :=
    mem_candidates.mpr ⟨site', j, s, hj, rfl⟩
  have hjrest : candidate now site' j s ∈ rest :=
    (List.mem_append.mp (hperm.mem_iff.mpr hjcand)).resolve_left (hkept hpicked.1)
  have hcand : candidate now site i e ≤ candidate now site' j s := hle _ hpicked.2 _ hjrest
  rcases Prod.Lex.toLex_le_toLex.mp hcand with hlt | ⟨heq, -⟩
  · exact hlt.le
  · exact heq.le

end Store

end Chromulate.Cookies
