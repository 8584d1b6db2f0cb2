import Chromulate.Lib.Select
import Chromulate.Lib.Table
import Mathlib.Data.Prod.Lex

/-!
# Eviction in batches

A table with a capacity that, once it is exceeded, loses the lowest ranked of its idle entries in
one pass, down to a target. One key is protected and busy entries are passed over, so the table
may stay above its target.

`lookup_removeAll` is what is left. `removeAll_smallest` is about a table without busy entries:
exactly so many go, and those that rank lowest.
-/

namespace Chromulate.Eviction

open Select

variable {κ ν ρ : Type*} [LinearOrder κ] [DecidableEq κ] [LinearOrder ρ]

/-- The entries that may go, with their ranks. -/
def candidates (protect : κ) (idle : κ → ν → Bool) (rank : ν → ρ) (t : Table κ ν) :
    List (ρ ×ₗ κ) :=
  (t.entries.filter fun p => p.1 ≠ protect && idle p.1 p.2).map fun p => toLex (rank p.2, p.1)

/-- The keys of the entries that go. -/
def victims (capacity target : Nat) (protect : κ) (idle : κ → ν → Bool) (rank : ν → ρ)
    (t : Table κ ν) : List κ :=
  if t.entries.length ≤ capacity then []
  else
    (smallest (t.entries.length - target) (candidates protect idle rank t)).map fun p => (ofLex p).2

/-- Remove some keys. -/
def removeAll (t : Table κ ν) (keys : List κ) : Table κ ν :=
  keys.foldl (fun t key => t.erase key) t

omit [LinearOrder κ] in
theorem lookup_removeAll (keys : List κ) (t : Table κ ν) (key : κ) :
    (removeAll t keys).lookup key = if key ∈ keys then none else t.lookup key := by
  induction keys generalizing t with
  | nil => rfl
  | cons k keys ih =>
    rw [removeAll, List.foldl_cons]
    refine (ih (t.erase k)).trans ?_
    by_cases hk : key = k
    · subst hk
      simp [AList.lookup_erase]
    · simp [hk, AList.lookup_erase_ne hk]

omit [LinearOrder κ] in
theorem length_removeAll {keys : List κ} {t : Table κ ν} (hnodup : keys.Nodup)
    (hkeys : ∀ key ∈ keys, (t.lookup key).isSome) :
    (removeAll t keys).entries.length + keys.length = t.entries.length := by
  induction keys generalizing t with
  | nil => rfl
  | cons key keys ih =>
    obtain ⟨hnew, hnodup⟩ := List.nodup_cons.mp hnodup
    obtain ⟨v, hv⟩ := Option.isSome_iff_exists.mp (hkeys key List.mem_cons_self)
    have hrest : ∀ other ∈ keys, ((t.erase key).lookup other).isSome := by
      intro other hother
      have hne : other ≠ key := fun h => hnew (h ▸ hother)
      rw [AList.lookup_erase_ne hne]
      exact hkeys other (List.mem_cons_of_mem _ hother)
    have hlength := ih hnodup hrest
    rw [(Table.entries_perm hv).length_eq, List.length_cons, List.length_cons]
    exact congrArg Nat.succ hlength

/-! ## The lowest ranked entries -/

/-- The entries with their ranks. -/
def ranked (rank : ν → ρ) (t : Table κ ν) : List (ρ ×ₗ κ) :=
  t.entries.map fun p => toLex (rank p.2, p.1)

omit [LinearOrder κ] [LinearOrder ρ] in
theorem mem_ranked {rank : ν → ρ} {t : Table κ ν} {p : ρ ×ₗ κ} :
    p ∈ ranked rank t ↔ ∃ v, t.lookup (ofLex p).2 = some v ∧ rank v = (ofLex p).1 := by
  constructor
  · intro h
    obtain ⟨entry, hentry, rfl⟩ := List.mem_map.mp h
    exact ⟨entry.2, AList.mem_lookup_iff.mpr hentry, rfl⟩
  · rintro ⟨v, hv, hrank⟩
    refine List.mem_map.mpr ⟨⟨(ofLex p).2, v⟩, AList.mem_lookup_iff.mp hv, ?_⟩
    rw [hrank]
    rfl

/-- **What is dropped ranks no higher than what is kept**, and no more goes than is asked for. -/
theorem removeAll_smallest (rank : ν → ρ) {k : Nat} {t after : Table κ ν}
    (hk : k ≤ t.entries.length)
    (hafter : after = removeAll t ((smallest k (ranked rank t)).map fun p => (ofLex p).2)) :
    after.entries.length + k = t.entries.length ∧
      ∀ gone x kept y, t.lookup gone = some x → after.lookup gone = none →
        after.lookup kept = some y → rank x ≤ rank y := by
  obtain ⟨rest, hperm, hle, hlength⟩ := smallest_spec k (ranked rank t)
  have hkeys : ((ranked rank t).map fun p => (ofLex p).2) = t.entries.keys := by
    simp [ranked, List.keys, Function.comp_def]
  constructor
  · have hnodup : ((smallest k (ranked rank t)).map fun p => (ofLex p).2).Nodup := by
      have hall : ((smallest k (ranked rank t) ++ rest).map fun p => (ofLex p).2).Nodup := by
        rw [(hperm.map _).nodup_iff, hkeys]
        exact t.nodupKeys
      rw [List.map_append] at hall
      exact hall.of_append_left
    have hcount := length_removeAll hnodup fun key hkey => by
      obtain ⟨p, hp, rfl⟩ := List.mem_map.mp hkey
      obtain ⟨v, hv, -⟩ := mem_ranked.mp (smallest_subset _ _ hp)
      rw [hv]
      rfl
    rw [← hafter, List.length_map, hlength, ranked, List.length_map, Nat.min_eq_left hk] at hcount
    exact hcount
  · intro gone x kept y hgone hnone hkept
    rw [hafter, lookup_removeAll] at hnone hkept
    split_ifs at hkept with hout
    -- the one that goes was selected, the one that stays was turned away
    have hin : toLex (rank x, gone) ∈ smallest k (ranked rank t) := by
      by_cases hmem : gone ∈ (smallest k (ranked rank t)).map fun p => (ofLex p).2
      · obtain ⟨p, hp, rfl⟩ := List.mem_map.mp hmem
        obtain ⟨v, hv, hrank⟩ := mem_ranked.mp (smallest_subset _ _ hp)
        rw [hgone] at hv
        cases hv
        rw [hrank]
        exact hp
      · rw [if_neg hmem, hgone] at hnone
        cases hnone
    have hrest : toLex (rank y, kept) ∈ rest := by
      have hmem : toLex (rank y, kept) ∈ ranked rank t := mem_ranked.mpr ⟨y, hkept, rfl⟩
      refine (List.mem_append.mp (hperm.mem_iff.mpr hmem)).resolve_left fun hsmall => hout ?_
      exact List.mem_map.mpr ⟨_, hsmall, rfl⟩
    exact Prod.Lex.monotone_fst _ _ (hle _ hin _ hrest)

end Chromulate.Eviction
