import Chromulate.Lib.Table

/-!
# A vector and the index of its positions

A common layout: a vector of items, and beside it a map from each item's key to the item's
position. The two must be kept in step by every mutation. `IndexedBy key l index` says that
they are; the rules below say which update of the index each update of the vector needs.

* `IndexedBy.push`, `IndexedBy.set`, `IndexedBy.map`: appending, replacing, rewriting in place.
* `IndexedBy.swapRemove`: removal by moving the last item into the hole.
* `indexedBy_reindex`: rebuilding the index from scratch.
-/

namespace Chromulate.Indexed

variable {α κ : Type*}

/-! ## Removing by swapping -/

/-- `Vec::swap_remove`: the last item takes the place of the one removed. An index out of range
panics in Rust and changes nothing here. -/
def swapRemove (l : List α) (i : Nat) : List α :=
  match l.getLast? with
  | some last => if i < l.length then (l.set i last).dropLast else l
  | none => l

variable {i j : Nat} {x y : α} {k : κ}

theorem getElem?_swapRemove {l : List α} (hi : i < l.length) (j : Nat) :
    (swapRemove l i)[j]? =
      if j + 1 < l.length then (if j = i then l.getLast? else l[j]?) else none := by
  obtain ⟨last, hlast⟩ : ∃ last, l.getLast? = some last := by
    cases h : l.getLast? with
    | none => rw [List.getLast?_eq_none_iff] at h; subst h; simp at hi
    | some last => exact ⟨last, rfl⟩
  simp only [swapRemove, hlast, hi, if_true, List.getElem?_dropLast, List.length_set]
  by_cases hj : j + 1 < l.length
  · have hj' : j < l.length - 1 := by omega
    simp only [hj, hj', if_true, List.getElem?_set]
    by_cases hji : j = i
    · subst hji; simp [hi]
    · simp [hji, Ne.symm hji]
  · have hj' : ¬ j < l.length - 1 := by omega
    simp [hj, hj']

theorem mem_of_mem_swapRemove {l : List α} (h : x ∈ swapRemove l i) : x ∈ l := by
  by_cases hi : i < l.length
  · obtain ⟨j, hj⟩ := List.mem_iff_getElem?.mp h
    rw [getElem?_swapRemove hi] at hj
    split_ifs at hj
    · exact List.mem_of_getLast? hj
    · exact List.mem_of_getElem? hj
  · unfold swapRemove at h
    split at h
    · rwa [if_neg hi] at h
    · exact h

theorem mem_swapRemove_of_ne {l : List α} (hx : l[j]? = some x) (hji : j ≠ i) (hi : i < l.length) :
    x ∈ swapRemove l i := by
  have hj : j < l.length := (List.getElem?_eq_some_iff.mp hx).1
  by_cases hlast : j + 1 < l.length
  · apply List.mem_of_getElem? (i := j)
    rw [getElem?_swapRemove hi, if_pos hlast, if_neg hji, hx]
  · -- `x` is the last item, so it was moved to position `i`.
    apply List.mem_of_getElem? (i := i)
    have hjl : j = l.length - 1 := by omega
    rw [getElem?_swapRemove hi, if_pos (by omega), if_pos rfl, List.getLast?_eq_getElem?, ← hjl,
      hx]

/-! ## The index -/

variable [DecidableEq κ]

/-- `index` maps exactly the keys of `l`, each to its own position. -/
def IndexedBy (key : α → κ) (l : List α) (index : Table κ Nat) : Prop :=
  ∀ k i, index.lookup k = some i ↔ l[i]?.map key = some k

variable {key : α → κ} {l : List α} {index : Table κ Nat}

theorem indexedBy_empty (key : α → κ) : IndexedBy key [] ∅ := by
  intro k i
  simp

theorem IndexedBy.lookup_key (h : IndexedBy key l index) (hx : l[i]? = some x) :
    index.lookup (key x) = some i :=
  (h (key x) i).mpr (by rw [hx]; rfl)

theorem IndexedBy.exists_of_lookup (h : IndexedBy key l index) (hk : index.lookup k = some i) :
    ∃ x, l[i]? = some x ∧ key x = k :=
  Option.map_eq_some_iff.mp ((h k i).mp hk)

/-- Two items with one key are one item: positions are unique. -/
theorem IndexedBy.eq_of_key_eq (h : IndexedBy key l index) (hx : l[i]? = some x)
    (hy : l[j]? = some y) (hk : key x = key y) : i = j :=
  Option.some.inj ((h.lookup_key hx).symm.trans (hk ▸ h.lookup_key hy))

theorem IndexedBy.nodup (h : IndexedBy key l index) : (l.map key).Nodup := by
  rw [List.nodup_iff_getElem?_ne_getElem?]
  intro i j hij hj heq
  rw [List.length_map] at hj
  have hi : i < l.length := by omega
  rw [List.getElem?_map, List.getElem?_map, List.getElem?_eq_getElem hi,
    List.getElem?_eq_getElem hj] at heq
  have hk : key l[i] = key l[j] := Option.some.inj heq
  have := h.eq_of_key_eq (List.getElem?_eq_getElem hi) (List.getElem?_eq_getElem hj) hk
  omega

theorem IndexedBy.lookup_eq_none (h : IndexedBy key l index) :
    index.lookup k = none ↔ ∀ x ∈ l, key x ≠ k := by
  constructor
  · intro hnone x hx hk
    obtain ⟨i, hi⟩ := List.mem_iff_getElem?.mp hx
    rw [← hk, h.lookup_key hi] at hnone
    cases hnone
  · intro hall
    cases hk : index.lookup k with
    | none => rfl
    | some i =>
      obtain ⟨x, hx, hxk⟩ := h.exists_of_lookup hk
      exact absurd hxk (hall x (List.mem_of_getElem? hx))

theorem indexedBy_of (hpos : ∀ i x, l[i]? = some x → index.lookup (key x) = some i)
    (hkeys : ∀ k i, index.lookup k = some i → ∃ x, l[i]? = some x ∧ key x = k) :
    IndexedBy key l index := by
  intro k i
  constructor
  · intro h
    exact Option.map_eq_some_iff.mpr (hkeys k i h)
  · intro h
    obtain ⟨x, hx, rfl⟩ := Option.map_eq_some_iff.mp h
    exact hpos i x hx

theorem IndexedBy.push (h : IndexedBy key l index) (hnew : index.lookup (key x) = none) :
    IndexedBy key (l ++ [x]) (index.insert (key x) l.length) := by
  have hfresh := h.lookup_eq_none.mp hnew
  apply indexedBy_of
  · intro i y hy
    by_cases hi : i < l.length
    · rw [List.getElem?_append_left hi] at hy
      rw [AList.lookup_insert_ne (hfresh y (List.mem_of_getElem? hy))]
      exact h.lookup_key hy
    · obtain ⟨hlt, -⟩ := List.getElem?_eq_some_iff.mp hy
      have hil : i = l.length := by simp at hlt; omega
      subst hil
      simp only [List.getElem?_concat_length, Option.some.injEq] at hy
      rw [← hy, AList.lookup_insert]
  · intro k i hk
    rcases Table.lookup_insert_eq_some.mp hk with ⟨rfl, rfl⟩ | ⟨-, hold⟩
    · exact ⟨x, by simp, rfl⟩
    · obtain ⟨y, hy, hyk⟩ := h.exists_of_lookup hold
      have hi : i < l.length := (List.getElem?_eq_some_iff.mp hy).1
      exact ⟨y, by rw [List.getElem?_append_left hi, hy], hyk⟩

theorem IndexedBy.set (h : IndexedBy key l index) (hy : l[i]? = some y) (hk : key x = key y) :
    IndexedBy key (l.set i x) index := by
  intro k j
  rw [h k j, List.getElem?_set]
  by_cases hij : i = j
  · subst hij
    have hi : i < l.length := (List.getElem?_eq_some_iff.mp hy).1
    rw [if_pos rfl, if_pos hi, hy, Option.map_some, Option.map_some, hk]
  · simp [hij]

theorem IndexedBy.map (h : IndexedBy key l index) {f : α → α} (hf : ∀ x, key (f x) = key x) :
    IndexedBy key (l.map f) index := by
  intro k i
  rw [h k i, List.getElem?_map, Option.map_map]
  have : key ∘ f = key := funext hf
  rw [this]

/-- With the key of the item at `i` erased, the index knows the items at the other positions. -/
theorem IndexedBy.lookup_erase_iff (h : IndexedBy key l index) (hy : l[i]? = some y) :
    (index.erase (key y)).lookup k = some j ↔ j ≠ i ∧ ∃ x, l[j]? = some x ∧ key x = k := by
  constructor
  · intro hk
    obtain ⟨hky, hlookup⟩ := Table.lookup_erase_eq_some.mp hk
    obtain ⟨x, hx, hxk⟩ := h.exists_of_lookup hlookup
    refine ⟨?_, x, hx, hxk⟩
    rintro rfl
    rw [hy, Option.some.injEq] at hx
    exact hky (by rw [hx, hxk])
  · rintro ⟨hji, x, hx, rfl⟩
    have hxy : key x ≠ key y := fun hk => hji (h.eq_of_key_eq hx hy hk)
    rw [AList.lookup_erase_ne hxy]
    exact h.lookup_key hx

/-- Removing the item at `i` by swapping needs two repairs: forget the removed key, and point
the moved item's key at the hole it filled. -/
theorem IndexedBy.swapRemove (h : IndexedBy key l index) (hy : l[i]? = some y) :
    IndexedBy key (swapRemove l i)
      (match (Indexed.swapRemove l i)[i]? with
        | some moved => (index.erase (key y)).insert (key moved) i
        | none => index.erase (key y)) := by
  have hi : i < l.length := (List.getElem?_eq_some_iff.mp hy).1
  have hget := getElem?_swapRemove (l := l) hi
  by_cases hlast : i + 1 < l.length
  · -- The hole is filled by the last item `z`.
    obtain ⟨z, hz⟩ : ∃ z, l[l.length - 1]? = some z :=
      ⟨_, List.getElem?_eq_getElem (by omega)⟩
    have hmoved : (Indexed.swapRemove l i)[i]? = some z := by
      rw [hget, if_pos hlast, if_pos rfl, List.getLast?_eq_getElem?, hz]
    rw [hmoved]
    apply indexedBy_of
    · intro j x hx
      rw [hget] at hx
      split_ifs at hx with hj hji
      · subst hji
        rw [List.getLast?_eq_getElem?, hz, Option.some.injEq] at hx
        rw [← hx, AList.lookup_insert]
      · have hxz : key x ≠ key z := fun hk => by
          have := h.eq_of_key_eq hx hz hk
          omega
        rw [AList.lookup_insert_ne hxz]
        exact (h.lookup_erase_iff hy).mpr ⟨hji, x, hx, rfl⟩
    · intro k j hk
      rcases Table.lookup_insert_eq_some.mp hk with ⟨rfl, rfl⟩ | ⟨hkz, hold⟩
      · exact ⟨z, hmoved, rfl⟩
      · obtain ⟨hji, x, hx, hxk⟩ := (h.lookup_erase_iff hy).mp hold
        have hj : j < l.length := (List.getElem?_eq_some_iff.mp hx).1
        have hjl : j ≠ l.length - 1 := by
          rintro rfl
          rw [hz, Option.some.injEq] at hx
          exact hkz (by rw [hx, hxk])
        exact ⟨x, by rw [hget, if_pos (by omega), if_neg hji, hx], hxk⟩
  · -- The removed item was the last one, so nothing moved.
    have hmoved : (Indexed.swapRemove l i)[i]? = none := by rw [hget, if_neg hlast]
    rw [hmoved]
    apply indexedBy_of
    · intro j x hx
      rw [hget] at hx
      split_ifs at hx with hj hji
      · omega
      · exact (h.lookup_erase_iff hy).mpr ⟨hji, x, hx, rfl⟩
    · intro k j hk
      obtain ⟨hji, x, hx, hxk⟩ := (h.lookup_erase_iff hy).mp hk
      have hj : j < l.length := (List.getElem?_eq_some_iff.mp hx).1
      exact ⟨x, by rw [hget, if_pos (by omega), if_neg hji, hx], hxk⟩

/-! ## Rebuilding -/

/-- The index built by inserting every item's key with its position, in order. -/
def reindex (key : α → κ) (l : List α) : Table κ Nat :=
  l.zipIdx.foldl (fun index p => index.insert (key p.1) p.2) ∅

theorem indexedBy_foldl (pre l : List α) (index : Table κ Nat) (h : IndexedBy key pre index)
    (hnd : ((pre ++ l).map key).Nodup) :
    IndexedBy key (pre ++ l)
      ((l.zipIdx pre.length).foldl (fun index p => index.insert (key p.1) p.2) index) := by
  induction l generalizing pre index with
  | nil => simpa using h
  | cons x l ih =>
    have hnew : index.lookup (key x) = none := by
      rw [h.lookup_eq_none]
      intro y hy hk
      simp only [List.map_append, List.map_cons, List.nodup_append, List.mem_map] at hnd
      exact hnd.2.2 (key y) ⟨y, hy, rfl⟩ (key x) (by simp) hk
    have hstep := h.push hnew
    rw [List.zipIdx_cons, List.foldl_cons]
    have hlen : pre.length + 1 = (pre ++ [x]).length := by simp
    have happ : pre ++ x :: l = (pre ++ [x]) ++ l := by simp
    rw [hlen, happ]
    rw [happ] at hnd
    exact ih (pre ++ [x]) (index.insert (key x) pre.length) hstep hnd

/-- **Rebuilding the index is right** whenever no key repeats. -/
theorem indexedBy_reindex (hnd : (l.map key).Nodup) : IndexedBy key l (reindex key l) :=
  indexedBy_foldl [] l ∅ (indexedBy_empty key) hnd

end Chromulate.Indexed
