import Mathlib.Data.List.Induction

/-!
# Lists in order of recency

A list that holds one item for each key, the most recent last: a new item takes the place of the
one with its key and moves to the end. `getLast?_filter_ofList` says that looking from the end
finds the most recent item of a kind, and `head?_eq_getLast?_iff` exactly when looking from the
front finds the same one.
-/

namespace Chromulate.Recency

variable {α κ : Type*} [DecidableEq κ] (key : α → κ)

/-- Put `x` last, in place of the item with its key. -/
def push (l : List α) (x : α) : List α := (l.filter fun y => key y ≠ key x) ++ [x]

/-- The list after a history of items. -/
def ofList (xs : List α) : List α := xs.foldl (push key) []

theorem ofList_concat (xs : List α) (x : α) :
    ofList key (xs ++ [x]) = push key (ofList key xs) x := by
  rw [ofList, List.foldl_append]
  rfl

variable {key}

theorem mem_push {l : List α} {x y : α} : y ∈ push key l x ↔ (y ∈ l ∧ key y ≠ key x) ∨ y = x := by
  simp [push]

theorem nodup_keys_push {l : List α} (h : (l.map key).Nodup) (x : α) :
    ((push key l x).map key).Nodup := by
  unfold push
  rw [List.map_append, List.nodup_append]
  refine ⟨h.sublist (List.filter_sublist.map _), by simp, ?_⟩
  intro k hold k' hnew
  obtain ⟨y, hy, rfl⟩ := List.mem_map.mp hold
  rw [List.map_singleton, List.mem_singleton] at hnew
  rw [hnew]
  simpa using (List.mem_filter.mp hy).2

theorem nodup_keys_ofList (xs : List α) : ((ofList key xs).map key).Nodup := by
  induction xs using List.reverseRecOn with
  | nil => exact List.nodup_nil
  | append_singleton xs x ih =>
    rw [ofList_concat]
    exact nodup_keys_push ih x

theorem mem_of_mem_ofList {xs : List α} {y : α} (h : y ∈ ofList key xs) : y ∈ xs := by
  induction xs using List.reverseRecOn with
  | nil => exact h
  | append_singleton xs x ih =>
    rw [ofList_concat] at h
    rcases mem_push.mp h with ⟨h, -⟩ | rfl
    · exact List.mem_append_left _ (ih h)
    · simp

/-- Every key of the history is still there. -/
theorem exists_mem_ofList (key : α → κ) {xs : List α} {x : α} (h : x ∈ xs) :
    ∃ y ∈ ofList key xs, key y = key x := by
  induction xs using List.reverseRecOn with
  | nil => cases h
  | append_singleton xs z ih =>
    rw [ofList_concat]
    by_cases hz : key x = key z
    · exact ⟨z, mem_push.mpr (Or.inr rfl), hz.symm⟩
    · have hx : x ∈ xs := by
        rcases List.mem_append.mp h with h | h
        · exact h
        · exact absurd (congrArg key (List.mem_singleton.mp h)) hz
      obtain ⟨y, hy, hkey⟩ := ih hx
      exact ⟨y, mem_push.mpr (Or.inl ⟨hy, hkey ▸ hz⟩), hkey⟩

section Kind

variable (kind : κ → Bool)

theorem filter_push (l : List α) (x : α) :
    (push key l x).filter (fun y => kind (key y)) =
      if kind (key x) then (l.filter fun y => kind (key y) && decide (key y ≠ key x)) ++ [x]
      else l.filter fun y => kind (key y) := by
  unfold push
  rw [List.filter_append, List.filter_filter]
  split_ifs with hx
  · simp [hx]
  · -- Only items of another kind were replaced.
    rw [List.filter_cons_of_neg (by simpa using hx), List.filter_nil, List.append_nil]
    apply List.filter_congr
    intro y _
    by_cases hy : key y = key x
    · simp [hy, hx]
    · simp [hy]

/-- **From the end**, the first item of a kind is the most recent one of the whole history. -/
theorem getLast?_filter_ofList (xs : List α) :
    ((ofList key xs).filter fun y => kind (key y)).getLast? =
      (xs.filter fun y => kind (key y)).getLast? := by
  induction xs using List.reverseRecOn with
  | nil => rfl
  | append_singleton xs x ih =>
    rw [ofList_concat, filter_push, List.filter_append]
    split_ifs with hx
    · simp [hx]
    · simpa [hx] using ih

/-- **From the front**, it is that one exactly when the history has one key of the kind. -/
theorem head?_eq_getLast?_iff (xs : List α) :
    ((ofList key xs).filter fun y => kind (key y)).head? =
        ((ofList key xs).filter fun y => kind (key y)).getLast? ↔
      ∀ a ∈ xs, ∀ b ∈ xs, kind (key a) → kind (key b) → key a = key b := by
  have hnodup : (((ofList key xs).filter fun y => kind (key y)).map key).Nodup :=
    (nodup_keys_ofList xs).sublist (List.filter_sublist.map _)
  constructor
  · intro hends a ha b hb hka hkb
    obtain ⟨a', ha', hkey⟩ := exists_mem_ofList key ha
    obtain ⟨b', hb', hkey'⟩ := exists_mem_ofList key hb
    have hma : a' ∈ (ofList key xs).filter fun y => kind (key y) :=
      List.mem_filter.mpr ⟨ha', by rw [hkey]; exact hka⟩
    have hmb : b' ∈ (ofList key xs).filter fun y => kind (key y) :=
      List.mem_filter.mpr ⟨hb', by rw [hkey']; exact hkb⟩
    -- A list without repetition that ends as it begins has one item.
    generalize (ofList key xs).filter (fun y => kind (key y)) = l at hends hnodup hma hmb
    cases l with
    | nil => cases hma
    | cons x rest =>
      have hrest : rest = [] := by
        by_contra hne
        have hlast : rest.getLast hne = x := by
          rw [List.head?_cons, List.getLast?_cons_of_ne_nil hne,
            List.getLast?_eq_some_getLast hne] at hends
          exact (Option.some.inj hends).symm
        have hmem : key x ∈ rest.map key :=
          List.mem_map.mpr ⟨_, List.getLast_mem hne, by rw [hlast]⟩
        rw [List.map_cons, List.nodup_cons] at hnodup
        exact hnodup.1 hmem
      subst hrest
      rw [← hkey, ← hkey', List.mem_singleton.mp hma, List.mem_singleton.mp hmb]
  · intro hone
    have hall : ∀ a ∈ (ofList key xs).filter fun y => kind (key y),
        ∀ b ∈ (ofList key xs).filter fun y => kind (key y), key a = key b := by
      intro a ha b hb
      obtain ⟨ha, hka⟩ := List.mem_filter.mp ha
      obtain ⟨hb, hkb⟩ := List.mem_filter.mp hb
      exact hone a (mem_of_mem_ofList ha) b (mem_of_mem_ofList hb) hka hkb
    generalize (ofList key xs).filter (fun y => kind (key y)) = l at hall hnodup ⊢
    cases l with
    | nil => rfl
    | cons x rest =>
      cases rest with
      | nil => rfl
      | cons y rest =>
        have hxy : key x = key y := hall x (by simp) y (by simp)
        rw [List.map_cons, List.map_cons, List.nodup_cons] at hnodup
        exact absurd (hxy ▸ List.mem_cons_self) hnodup.1

end Kind

end Chromulate.Recency
