import Chromulate.Cookies.Cookie
import Chromulate.Lib.Indexed
import Chromulate.Lib.Select

/-!
# One registrable domain's cookies

`Bucket` of `chromulate-cookie/src/jar.rs`: a vector of entries and an index from each cookie's
identity to its position. Every mutator is given with two facts: it keeps the index in step
(`Bucket.WF`), and which entries it leaves behind.

`trim_to` selects its victims with `select_nth_unstable_by_key`, which leaves the order of equal
keys open; everything here holds for any selection that keeps its documented promise.
-/

namespace Chromulate.Cookies

open Indexed Select

structure Entry where
  cookie : Cookie
  creationSeq : UInt64
  lastAccessSeq : UInt64
  deriving DecidableEq

/-- `Identity`: name, domain and path. -/
abbrev Identity := Str × Str × Str

def identityOf (cookie : Cookie) : Identity := (cookie.name, cookie.domain, cookie.path)

def Entry.identity (entry : Entry) : Identity := identityOf entry.cookie

structure Bucket where
  entries : List Entry := []
  index : Table Identity Nat := ∅
  deriving DecidableEq

namespace Bucket

def len (bucket : Bucket) : Nat := bucket.entries.length

def get (bucket : Bucket) (position : Nat) : Option Entry := bucket.entries[position]?

def positionOf (bucket : Bucket) (name domain path : Str) : Option Nat :=
  bucket.index.lookup (name, domain, path)

def push (bucket : Bucket) (entry : Entry) : Bucket where
  entries := bucket.entries ++ [entry]
  index := bucket.index.insert entry.identity bucket.entries.length

def replace (bucket : Bucket) (position : Nat) (entry : Entry) : Bucket :=
  { bucket with entries := bucket.entries.set position entry }

/-- `Bucket::remove`. A position out of range would panic; `position_of` never returns one. -/
def remove (bucket : Bucket) (position : Nat) : Bucket :=
  match bucket.entries[position]? with
  | none => bucket
  | some removed =>
    let entries := swapRemove bucket.entries position
    let index := bucket.index.erase removed.identity
    { entries
      index := match entries[position]? with
        | some moved => index.insert moved.identity position
        | none => index }

def reindex (bucket : Bucket) : Bucket :=
  { bucket with index := Indexed.reindex Entry.identity bucket.entries }

def removeExpired (bucket : Bucket) (now : SystemTime) : Bucket :=
  let kept := { bucket with entries := bucket.entries.filter fun e => !e.cookie.isExpired now }
  if kept.len ≠ bucket.len then kept.reindex else kept

def removeAll (bucket : Bucket) (positions : List Nat) : Bucket :=
  if positions.isEmpty then bucket
  else
    let kept := (bucket.entries.zipIdx.filter fun p => p.2 ∉ positions).map Prod.fst
    reindex { bucket with entries := kept }

/-- The key `trim_to` ranks a position by. -/
def accessRank (bucket : Bucket) (position : Nat) : Nat :=
  match bucket.entries[position]? with
  | some entry => entry.lastAccessSeq.toNat
  | none => 0

/-- The positions `trim_to` gives up. -/
def doomed (select : SelectNth) (bucket : Bucket) (keep : Nat) : List Nat :=
  let doomedCount := bucket.len - keep
  let ranked := select.run bucket.accessRank (doomedCount - 1) (List.range bucket.len)
  ranked.take doomedCount

def trimTo (select : SelectNth) (bucket : Bucket) (keep : Nat) : Bucket :=
  if bucket.len ≤ keep then bucket else bucket.removeAll (bucket.doomed select keep)

/-! ## Vector and index in step -/

/-- The index maps exactly the identities of the entries, each to its own position. -/
def WF (bucket : Bucket) : Prop := IndexedBy Entry.identity bucket.entries bucket.index

theorem wf_empty : WF {} := indexedBy_empty Entry.identity

variable {bucket : Bucket}

theorem WF.nodup (h : bucket.WF) : (bucket.entries.map Entry.identity).Nodup := IndexedBy.nodup h

variable {position : Nat} {entry old e : Entry}

theorem WF.get_of_positionOf (h : bucket.WF) {name domain path : Str}
    (hp : bucket.positionOf name domain path = some position) :
    ∃ old, bucket.get position = some old ∧ old.identity = (name, domain, path) :=
  h.exists_of_lookup hp

theorem WF.positionOf_eq_none (h : bucket.WF) {name domain path : Str} :
    bucket.positionOf name domain path = none ↔
      ∀ e ∈ bucket.entries, e.identity ≠ (name, domain, path) :=
  IndexedBy.lookup_eq_none h

theorem WF.push (h : bucket.WF) (hnew : ∀ e ∈ bucket.entries, e.identity ≠ entry.identity) :
    (bucket.push entry).WF :=
  IndexedBy.push h (h.lookup_eq_none.mpr hnew)

theorem WF.replace (h : bucket.WF) (hold : bucket.get position = some old)
    (hid : entry.identity = old.identity) : (bucket.replace position entry).WF :=
  IndexedBy.set h hold hid

theorem WF.remove (h : bucket.WF) (position : Nat) : (bucket.remove position).WF := by
  unfold Bucket.remove
  split
  · exact h
  · rename_i removed hremoved
    have hswap := IndexedBy.swapRemove h hremoved
    unfold WF
    cases hmoved : (swapRemove bucket.entries position)[position]? with
    | none => simpa [hmoved] using hswap
    | some moved => simpa [hmoved] using hswap

/-- Rebuilding repairs any bucket whose entries came from a sound one. -/
theorem WF.reindex_of_sublist (h : bucket.WF) {entries : List Entry}
    (hsub : entries.Sublist bucket.entries) (index : Table Identity Nat) :
    (Bucket.reindex { entries, index }).WF :=
  indexedBy_reindex (h.nodup.sublist (hsub.map Entry.identity))

theorem WF.removeExpired (h : bucket.WF) (now : SystemTime) : (bucket.removeExpired now).WF := by
  unfold Bucket.removeExpired
  simp only
  split
  · exact h.reindex_of_sublist List.filter_sublist _
  · -- Nothing was dropped, so the entries are the same and the old index still fits.
    rename_i hlen
    have hsame := List.filter_sublist.eq_of_length (not_not.mp hlen)
    show IndexedBy Entry.identity (bucket.entries.filter _) bucket.index
    rw [hsame]
    exact h

theorem removeAll_sublist (bucket : Bucket) (positions : List Nat) :
    (bucket.removeAll positions).entries.Sublist bucket.entries := by
  unfold removeAll
  split
  · exact List.Sublist.refl _
  · have hsub : ((bucket.entries.zipIdx.filter fun p => p.2 ∉ positions).map Prod.fst).Sublist
        (bucket.entries.zipIdx.map Prod.fst) := List.filter_sublist.map Prod.fst
    rwa [List.zipIdx_map_fst] at hsub

theorem WF.removeAll (h : bucket.WF) (positions : List Nat) : (bucket.removeAll positions).WF := by
  unfold Bucket.removeAll
  split
  · exact h
  · rename_i hne
    have hsub := bucket.removeAll_sublist positions
    simp only [Bucket.removeAll, hne, Bool.false_eq_true, if_false] at hsub
    exact h.reindex_of_sublist hsub _

theorem WF.trimTo (h : bucket.WF) (select : SelectNth) (keep : Nat) :
    (bucket.trimTo select keep).WF := by
  unfold Bucket.trimTo
  split
  · exact h
  · exact h.removeAll _

/-! ## What is left behind -/

theorem mem_replace (he : e ∈ (bucket.replace position entry).entries) :
    e ∈ bucket.entries ∨ e = entry :=
  List.mem_or_eq_of_mem_set he

theorem entries_remove (hold : bucket.get position = some old) :
    (bucket.remove position).entries = swapRemove bucket.entries position := by
  unfold remove
  rw [show bucket.entries[position]? = some old from hold]

theorem mem_remove (he : e ∈ (bucket.remove position).entries) : e ∈ bucket.entries := by
  unfold remove at he
  split at he
  · exact he
  · exact mem_of_mem_swapRemove he

/-- An entry of another identity outlives a replacement. -/
theorem mem_replace_of_ne (hold : bucket.get position = some old) (he : e ∈ bucket.entries)
    (hne : e.identity ≠ old.identity) : e ∈ (bucket.replace position entry).entries := by
  obtain ⟨i, hi⟩ := List.mem_iff_getElem?.mp he
  apply List.mem_of_getElem? (i := i)
  show (bucket.entries.set position entry)[i]? = some e
  rw [List.getElem?_set_ne, hi]
  rintro rfl
  exact hne (by rw [Option.some.inj (hi.symm.trans hold)])

/-- An entry of another identity outlives a removal. -/
theorem mem_remove_of_ne (hold : bucket.get position = some old) (he : e ∈ bucket.entries)
    (hne : e.identity ≠ old.identity) : e ∈ (bucket.remove position).entries := by
  have hpos : position < bucket.entries.length := (List.getElem?_eq_some_iff.mp hold).1
  obtain ⟨i, hi⟩ := List.mem_iff_getElem?.mp he
  rw [entries_remove hold]
  apply mem_swapRemove_of_ne hi _ hpos
  rintro rfl
  exact hne (by rw [Option.some.inj (hi.symm.trans hold)])

/-- The entry taken out by a removal is gone. -/
theorem WF.ne_of_mem_remove (h : bucket.WF) (hold : bucket.get position = some old)
    (he : e ∈ (bucket.remove position).entries) : e.identity ≠ old.identity := by
  intro hid
  obtain ⟨j, hj⟩ := List.mem_iff_getElem?.mp he
  have hpos : position < bucket.entries.length := (List.getElem?_eq_some_iff.mp hold).1
  rw [entries_remove hold, getElem?_swapRemove hpos] at hj
  split_ifs at hj with hlt hji
  · rw [List.getLast?_eq_getElem?] at hj
    have := h.eq_of_key_eq hj hold hid
    omega
  · exact hji (h.eq_of_key_eq hj hold hid)

@[simp] theorem entries_removeExpired (bucket : Bucket) (now : SystemTime) :
    (bucket.removeExpired now).entries =
      bucket.entries.filter fun e => !e.cookie.isExpired now := by
  unfold removeExpired
  simp only
  split <;> rfl

theorem mem_removeAll {positions : List Nat} :
    e ∈ (bucket.removeAll positions).entries ↔
      ∃ i, bucket.get i = some e ∧ i ∉ positions := by
  unfold removeAll
  split
  · rename_i hempty
    rw [List.isEmpty_iff] at hempty
    subst hempty
    simp [get, List.mem_iff_getElem?]
  · show e ∈ (bucket.entries.zipIdx.filter fun p => p.2 ∉ positions).map Prod.fst ↔ _
    simp only [List.mem_map, List.mem_filter, decide_eq_true_eq, Prod.exists,
      List.mem_zipIdx_iff_getElem?, exists_and_right, exists_eq_right, get]

theorem trimTo_sublist (select : SelectNth) (bucket : Bucket) (keep : Nat) :
    (bucket.trimTo select keep).entries.Sublist bucket.entries := by
  unfold trimTo
  split
  · exact List.Sublist.refl _
  · exact removeAll_sublist _ _

/-- **Trimming is least recently used first**: nothing it drops was accessed after anything it
keeps. -/
theorem le_of_trimTo {select : SelectNth} {keep : Nat} {s : Entry} (he : e ∈ bucket.entries)
    (hgone : e ∉ (bucket.trimTo select keep).entries)
    (hs : s ∈ (bucket.trimTo select keep).entries) :
    e.lastAccessSeq ≤ s.lastAccessSeq := by
  unfold trimTo at hgone hs
  split at hgone
  · exact absurd he hgone
  · rename_i hover
    rw [if_neg hover] at hs
    obtain ⟨i, hi⟩ := List.mem_iff_getElem?.mp he
    obtain ⟨j, hj, hjkept⟩ := mem_removeAll.mp hs
    have hidoomed : i ∈ bucket.doomed select keep := by
      by_contra hnot
      exact hgone (mem_removeAll.mpr ⟨i, hi, hnot⟩)
    have hn : bucket.len - keep - 1 < (List.range bucket.len).length := by
      rw [List.length_range]
      omega
    have hcount : bucket.len - keep - 1 + 1 = bucket.len - keep := by omega
    have hperm := select.perm bucket.accessRank (bucket.len - keep - 1) (List.range bucket.len)
    have hjmem : j ∈ List.range bucket.len :=
      List.mem_range.mpr (List.getElem?_eq_some_iff.mp hj).1
    have hjback : j ∈ (select.run bucket.accessRank (bucket.len - keep - 1)
        (List.range bucket.len)).drop (bucket.len - keep - 1 + 1) := by
      have hmem := hperm.mem_iff.mpr hjmem
      rw [← List.take_append_drop (bucket.len - keep) (select.run _ _ _)] at hmem
      rw [hcount]
      exact (List.mem_append.mp hmem).resolve_left hjkept
    have hrank := select.le_of_mem hn (by rw [hcount]; exact hidoomed) hjback
    have hrank_i : bucket.accessRank i = e.lastAccessSeq.toNat := by simp [accessRank, hi]
    have hrank_j : bucket.accessRank j = s.lastAccessSeq.toNat := by
      simp [accessRank, show bucket.entries[j]? = some s from hj]
    rwa [hrank_i, hrank_j, ← UInt64.le_iff_toNat_le] at hrank

end Bucket

end Chromulate.Cookies
