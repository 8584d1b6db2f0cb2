import Mathlib.Data.List.AList
import Mathlib.Algebra.BigOperators.Group.List.Basic
import Mathlib.Algebra.Ring.Nat

/-!
# Tables

A hash map seen from outside: a finite map with distinct keys and no meaningful order. The
representation, `insert`, `erase` and `lookup` are Mathlib's `AList`; this file adds the bulk
operations (`mapValues`, `retain`) and the rules for a quantity summed over all values, which
is what a running counter beside a map has to agree with.
-/

namespace Chromulate

/-- A finite map from `κ` to `ν`. -/
abbrev Table (κ ν : Type*) := AList (fun _ : κ => ν)

namespace Table

variable {κ ν α : Type*}

def values (t : Table κ ν) : List ν := t.entries.map Sigma.snd

/-- `HashMap::values_mut` with an update of every value. -/
def mapValues (f : ν → ν) (t : Table κ ν) : Table κ ν where
  entries := t.entries.map fun p => ⟨p.1, f p.2⟩
  nodupKeys := by
    have h := t.nodupKeys
    unfold List.NodupKeys List.keys at h ⊢
    simpa [List.map_map, Function.comp_def] using h

def retain (keep : κ → ν → Bool) (t : Table κ ν) : Table κ ν where
  entries := t.entries.filter fun p => keep p.1 p.2
  nodupKeys := t.nodupKeys.sublist List.filter_sublist

/-- The sum of `f` over all values. -/
def sumOf (f : ν → Nat) (t : Table κ ν) : Nat := (t.values.map f).sum

variable [DecidableEq κ]

/-! ## Membership -/

variable {v : ν} {k : κ}

theorem mem_values {t : Table κ ν} : v ∈ t.values ↔ ∃ k, t.lookup k = some v := by
  constructor
  · intro h
    obtain ⟨p, hp, rfl⟩ := List.mem_map.mp h
    exact ⟨p.1, AList.mem_lookup_iff.mpr hp⟩
  · rintro ⟨k, h⟩
    exact List.mem_map.mpr ⟨⟨k, v⟩, AList.mem_lookup_iff.mp h, rfl⟩

/-- Taking a present key out of a table and putting it back in front permutes the entries. -/
theorem entries_perm {t : Table κ ν} (h : t.lookup k = some v) :
    t.entries.Perm (⟨k, v⟩ :: (t.erase k).entries) := by
  have hmem : (⟨k, v⟩ : Sigma fun _ : κ => ν) ∈ t.entries := AList.mem_lookup_iff.mp h
  have hkey : k ∈ t.entries.keys := List.mem_keys_of_mem hmem
  obtain ⟨b, l₁, l₂, hk₁, heq, hker⟩ := List.exists_of_kerase hkey
  have hb : v = b := by
    have hnd : ∀ w, (⟨k, w⟩ : Sigma fun _ : κ => ν) ∈ t.entries → t.lookup k = some w :=
      fun w hw => AList.mem_lookup_iff.mpr hw
    have hbm : (⟨k, b⟩ : Sigma fun _ : κ => ν) ∈ t.entries := by rw [heq]; simp
    exact Option.some.inj (h.symm.trans (hnd b hbm))
  subst hb
  show t.entries.Perm (⟨k, v⟩ :: t.entries.kerase k)
  rw [hker]
  nth_rewrite 1 [heq]
  exact List.perm_middle

theorem lookup_erase_eq_some {t : Table κ ν} {a : κ} :
    (t.erase k).lookup a = some v ↔ a ≠ k ∧ t.lookup a = some v := by
  by_cases h : a = k
  · subst h
    simp [AList.lookup_erase]
  · simp [h, AList.lookup_erase_ne h]

theorem lookup_insert_eq_some {t : Table κ ν} {a : κ} {w : ν} :
    (t.insert k v).lookup a = some w ↔ a = k ∧ w = v ∨ a ≠ k ∧ t.lookup a = some w := by
  by_cases h : a = k
  · subst h
    simp [eq_comm]
  · simp [h, AList.lookup_insert_ne h]

theorem entries_erase_of_lookup_none {t : Table κ ν} (h : t.lookup k = none) :
    (t.erase k).entries = t.entries :=
  List.kerase_of_notMem_keys (AList.lookup_eq_none.mp h)

theorem length_insert_le (t : Table κ ν) (k : κ) (v : ν) :
    (t.insert k v).entries.length ≤ t.entries.length + 1 := by
  rw [AList.entries_insert, List.length_cons]
  exact Nat.succ_le_succ (List.kerase_sublist _ _).length_le

/-! ## Orders of iteration -/

/-- An order in which the entries are gone through. Nothing is promised of it but that each entry
comes once. -/
structure Scan (κ ν : Type*) where
  run : Table κ ν → List (Sigma fun _ : κ => ν)
  perm : ∀ t, (run t).Perm t.entries

/-- As they are listed. -/
def Scan.listed : Scan κ ν := ⟨fun t => t.entries, fun _ => .refl _⟩

/-- With the entry of a key in front, if there is one. -/
def Scan.leading (k : κ) : Scan κ ν where
  run t :=
    match t.lookup k with
    | some v => ⟨k, v⟩ :: (t.erase k).entries
    | none => t.entries
  perm t := by
    cases h : t.lookup k with
    | some v => exact (entries_perm h).symm
    | none => exact .refl _

theorem Scan.mem_run {scan : Scan κ ν} {t : Table κ ν} :
    ⟨k, v⟩ ∈ scan.run t ↔ t.lookup k = some v :=
  (scan.perm t).mem_iff.trans AList.mem_lookup_iff.symm

/-! ## Bulk operations and lookups -/

@[simp] theorem lookup_mapValues (f : ν → ν) (t : Table κ ν) (k : κ) :
    (t.mapValues f).lookup k = (t.lookup k).map f := by
  apply Option.ext
  intro w
  rw [show ((t.mapValues f).lookup k = some w) ↔ (⟨k, w⟩ : Sigma fun _ : κ => ν) ∈
      (t.mapValues f).entries from AList.mem_lookup_iff, Option.map_eq_some_iff]
  constructor
  · intro h
    obtain ⟨⟨k', v⟩, hp, heq⟩ := List.mem_map.mp h
    cases heq
    exact ⟨v, AList.mem_lookup_iff.mpr hp, rfl⟩
  · rintro ⟨v, hv, rfl⟩
    exact List.mem_map.mpr ⟨⟨k, v⟩, AList.mem_lookup_iff.mp hv, rfl⟩

@[simp] theorem lookup_retain (keep : κ → ν → Bool) (t : Table κ ν) (k : κ) :
    (t.retain keep).lookup k = (t.lookup k).filter (keep k) := by
  apply Option.ext
  intro w
  rw [show ((t.retain keep).lookup k = some w) ↔ (⟨k, w⟩ : Sigma fun _ : κ => ν) ∈
      (t.retain keep).entries from AList.mem_lookup_iff, Option.filter_eq_some_iff]
  rw [show (t.lookup k = some w) ↔ (⟨k, w⟩ : Sigma fun _ : κ => ν) ∈ t.entries from
    AList.mem_lookup_iff]
  exact List.mem_filter

/-! ## Sums over all values -/

theorem sumOf_insert (f : ν → Nat) (t : Table κ ν) (k : κ) (v : ν) :
    sumOf f (t.insert k v) = f v + sumOf f (t.erase k) := by
  show (((⟨k, v⟩ :: t.entries.kerase k).map Sigma.snd).map f).sum
    = f v + (((t.entries.kerase k).map Sigma.snd).map f).sum
  simp only [List.map_cons, List.sum_cons]

theorem sumOf_eq_of_lookup {f : ν → Nat} {t : Table κ ν} (h : t.lookup k = some v) :
    sumOf f t = f v + sumOf f (t.erase k) := by
  have hp := ((entries_perm h).map Sigma.snd).map f
  simpa [sumOf, values] using hp.sum_eq

theorem sumOf_erase_of_lookup_none {f : ν → Nat} {t : Table κ ν} (h : t.lookup k = none) :
    sumOf f (t.erase k) = sumOf f t := by
  rw [sumOf, sumOf, values, values, entries_erase_of_lookup_none h]

omit [DecidableEq κ] in
theorem sumOf_le_sumOf {f g : ν → Nat} (hle : ∀ v, f v ≤ g v) (t : Table κ ν) :
    sumOf f t ≤ sumOf g t := by
  simp only [sumOf, values]
  induction t.entries with
  | nil => exact Nat.le_refl _
  | cons p l ih =>
    have hp := hle p.2
    simp only [List.map_cons, List.sum_cons]
    omega

omit [DecidableEq κ] in
/-- Dropping entries, and making the others no greater, makes no sum greater. -/
theorem sumOf_retain_mapValues_le {f : ν → Nat} {g : ν → ν} (hle : ∀ v, f (g v) ≤ f v)
    (keep : κ → ν → Bool) (t : Table κ ν) : sumOf f ((t.mapValues g).retain keep) ≤ sumOf f t := by
  simp only [sumOf, values, retain, mapValues]
  induction t.entries with
  | nil => exact Nat.le_refl _
  | cons p l ih =>
    have hp := hle p.2
    simp only [List.map_cons, List.filter_cons, List.sum_cons]
    split_ifs
    · simp only [List.map_cons, List.sum_cons]
      omega
    · omega

theorem erase_insert (t : Table κ ν) (k : κ) (v : ν) : (t.insert k v).erase k = t.erase k := by
  apply AList.ext
  show (⟨k, v⟩ :: t.entries.kerase k).kerase k = t.entries.kerase k
  exact List.kerase_cons_eq rfl

/-! ## Items filed under a key they determine -/

omit [DecidableEq κ] in
/-- When every item determines the key it is filed under and no value holds an item twice, no
item occurs twice in the whole table. -/
theorem nodup_flatMap {t : Table κ ν} {items : ν → List α} (key : α → κ)
    (hkey : ∀ p ∈ t.entries, ∀ x ∈ items p.2, key x = p.1)
    (hnd : ∀ p ∈ t.entries, (items p.2).Nodup) : (t.values.flatMap items).Nodup := by
  rw [values, List.flatMap_map, List.nodup_flatMap]
  refine ⟨hnd, ?_⟩
  have hpair := List.nodupKeys_iff_pairwise.mp t.nodupKeys
  refine hpair.imp_of_mem fun {p q} hp hq hne => ?_
  intro x hxp hxq
  exact hne ((hkey p hp x hxp).symm.trans (hkey q hq x hxq))

end Table

end Chromulate
