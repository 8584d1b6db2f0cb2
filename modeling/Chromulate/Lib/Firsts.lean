import Mathlib.Data.List.Basic

/-!
# First occurrences

The items of a list whose key has not come before, which is what is left when a loop passes over
repetitions.
-/

namespace Chromulate

variable {α β : Type*} [DecidableEq β] (key : α → β)

/-- The items whose key is not among those seen and has not come before. -/
def firsts : List β → List α → List α
  | _, [] => []
  | seen, a :: items =>
    if key a ∈ seen then firsts (key a :: seen) items else a :: firsts (key a :: seen) items

variable {key} {seen : List β} {items : List α}

theorem mem_map_firsts {k : β} :
    k ∈ (firsts key seen items).map key ↔ k ∈ items.map key ∧ k ∉ seen := by
  induction items generalizing seen with
  | nil => simp [firsts]
  | cons a items ih =>
    rw [firsts, List.map_cons, List.mem_cons]
    by_cases hseen : key a ∈ seen
    · rw [if_pos hseen, ih, List.mem_cons]
      by_cases hk : k = key a
      · simp [hk, hseen]
      · simp [hk]
    · rw [if_neg hseen, List.map_cons, List.mem_cons, ih, List.mem_cons]
      by_cases hk : k = key a
      · simp [hk, hseen]
      · simp [hk]

theorem not_mem_seen {a : α} (h : a ∈ firsts key seen items) : key a ∉ seen :=
  (mem_map_firsts.mp (List.mem_map_of_mem h)).2

theorem firsts_sublist : (firsts key seen items).Sublist items := by
  induction items generalizing seen with
  | nil => exact List.Sublist.refl _
  | cons a items ih =>
    rw [firsts]
    split_ifs
    · exact ih.cons a
    · exact ih.cons_cons a

/-- The keys come in the order of their first occurrence. -/
theorem pairwise_firsts : (firsts key seen items).Pairwise fun a b =>
    (items.map key).idxOf (key a) < (items.map key).idxOf (key b) := by
  induction items generalizing seen with
  | nil => exact List.Pairwise.nil
  | cons a items ih =>
    -- behind the head every key is another one, and one place further on
    have hidx : ∀ b ∈ firsts key (key a :: seen) items,
        ((a :: items).map key).idxOf (key b) = (items.map key).idxOf (key b) + 1 := by
      intro b hb
      have hne : key b ≠ key a := fun heq => not_mem_seen hb (heq ▸ List.mem_cons_self)
      rw [List.map_cons, List.idxOf_cons_ne _ (Ne.symm hne)]
    have htail : (firsts key (key a :: seen) items).Pairwise fun b c =>
        ((a :: items).map key).idxOf (key b) < ((a :: items).map key).idxOf (key c) := by
      refine ih.imp_of_mem ?_
      intro b c hb hc hlt
      rw [hidx b hb, hidx c hc]
      omega
    rw [firsts]
    split_ifs
    · exact htail
    · refine List.pairwise_cons.mpr ⟨fun b hb => ?_, htail⟩
      rw [hidx b hb, List.map_cons, List.idxOf_cons_self]
      omega

theorem nodup_map_firsts : ((firsts key seen items).map key).Nodup := by
  refine List.pairwise_map.mpr (pairwise_firsts.imp ?_)
  intro a b hlt heq
  rw [heq] at hlt
  exact Nat.lt_irrefl _ hlt

/-- The first item of a key is what a search for it finds. -/
theorem find?_of_mem_firsts {a : α} (h : a ∈ firsts key seen items) :
    items.find? (fun item => key item = key a) = some a := by
  induction items generalizing seen with
  | nil => cases h
  | cons b items ih =>
    have hrest : a ∈ firsts key (key b :: seen) items →
        (b :: items).find? (fun item => key item = key a) = some a := by
      intro hmem
      have hne : key a ≠ key b := fun heq => not_mem_seen hmem (heq ▸ List.mem_cons_self)
      rw [List.find?_cons_of_neg (by simpa using Ne.symm hne)]
      exact ih hmem
    rw [firsts] at h
    split_ifs at h
    · exact hrest h
    · rcases List.mem_cons.mp h with rfl | hmem
      · exact List.find?_cons_of_pos (by simp)
      · exact hrest hmem

end Chromulate
