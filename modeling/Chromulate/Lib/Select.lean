import Mathlib.Data.List.Sort
import Mathlib.Order.Basic

/-!
# Selecting the smallest

Ways a program finds the `k` smallest of many items without sorting them all.

* `SelectNth`: `select_nth_unstable_by_key`, which only promises what it documents. How it
  orders equal keys is unspecified, so it is a structure carrying its promise and not one
  function; results are stated for every value of it.
* `minByKey`: the first of the items with the smallest key.
* `smallest`: one pass that keeps the `k` smallest seen so far in a heap with the greatest on
  top. `smallest_spec` says that the pass computes what it is for.
-/

namespace Chromulate.Select

/-! ## Selection around a position -/

/-- An implementation of `select_nth_unstable_by_key`: it reorders the items so that the one at
position `n` is where sorting would put it, with no greater key before it and no smaller key
after it. -/
structure SelectNth where
  /-- The reordering of `items` around position `n`. -/
  run : (key : Nat → Nat) → (n : Nat) → (items : List Nat) → List Nat
  perm : ∀ key n items, (run key n items).Perm items
  pivot : ∀ key n items, n < items.length →
    ∃ front mid back, run key n items = front ++ mid :: back ∧ front.length = n ∧
      (∀ a ∈ front, key a ≤ key mid) ∧ ∀ b ∈ back, key mid ≤ key b

/-- The items up to position `n` have no greater key than the items after it. -/
theorem SelectNth.le_of_mem (sel : SelectNth) {key : Nat → Nat} {n a b : Nat} {items : List Nat}
    (hn : n < items.length) (ha : a ∈ (sel.run key n items).take (n + 1))
    (hb : b ∈ (sel.run key n items).drop (n + 1)) : key a ≤ key b := by
  obtain ⟨front, mid, back, hrun, hlen, hfront, hback⟩ := sel.pivot key n items hn
  have hsplit : front ++ mid :: back = (front ++ [mid]) ++ back := by simp
  have hlen' : (front ++ [mid]).length = n + 1 := by simp [hlen]
  rw [hrun, hsplit, ← hlen', List.take_left] at ha
  rw [hrun, hsplit, ← hlen', List.drop_left] at hb
  rcases List.mem_append.mp ha with ha | ha
  · exact (hfront a ha).trans (hback b hb)
  · rw [List.mem_singleton.mp ha]
    exact hback b hb

/-- Sorting selects. -/
def SelectNth.sorting : SelectNth where
  run key _ items := items.insertionSort (key · ≤ key ·)
  perm key _ items := List.perm_insertionSort _ items
  pivot key n items hn := by
    have : Std.Total (α := Nat) (key · ≤ key ·) := ⟨fun a b => le_total (key a) (key b)⟩
    have : IsTrans Nat (key · ≤ key ·) := ⟨fun a b c => le_trans⟩
    set sorted := items.insertionSort (key · ≤ key ·)
    have hpair : sorted.Pairwise (key · ≤ key ·) := List.pairwise_insertionSort _ items
    have hlen : n < sorted.length := by simpa [sorted] using hn
    have hsplit : sorted = sorted.take n ++ sorted[n] :: sorted.drop (n + 1) := by
      rw [List.getElem_cons_drop, List.take_append_drop]
    rw [hsplit, List.pairwise_append, List.pairwise_cons] at hpair
    obtain ⟨-, ⟨hback, -⟩, hfront⟩ := hpair
    exact ⟨sorted.take n, sorted[n], sorted.drop (n + 1), hsplit,
      by simp [Nat.le_of_lt hlen], fun a ha => hfront a ha _ List.mem_cons_self, hback⟩

/-! ## The first of the smallest -/

section Min

variable {α β : Type*} [LT β] [DecidableLT β] {key : α → β} {items : List α}

def minByKey (key : α → β) : List α → Option α
  | [] => none
  | a :: items =>
    match minByKey key items with
    | none => some a
    | some b => if key b < key a then some b else some a

theorem mem_of_minByKey {a : α} (h : minByKey key items = some a) : a ∈ items := by
  induction items generalizing a with
  | nil => cases h
  | cons x items ih =>
    unfold minByKey at h
    split at h
    · cases h
      exact List.mem_cons_self
    · rename_i b hb
      split_ifs at h
      · cases h
        exact List.mem_cons_of_mem _ (ih hb)
      · cases h
        exact List.mem_cons_self

theorem minByKey_cons_of_forall {a : α} (h : ∀ b ∈ items, ¬ key b < key a) :
    minByKey key (a :: items) = some a := by
  unfold minByKey
  split
  · rfl
  · rename_i b hb
    rw [if_neg (h b (mem_of_minByKey hb))]

theorem exists_minByKey (key : α → β) (h : items ≠ []) : ∃ a, minByKey key items = some a := by
  cases items with
  | nil => exact absurd rfl h
  | cons x items =>
    unfold minByKey
    split
    · exact ⟨x, rfl⟩
    · rename_i b _
      split_ifs
      · exact ⟨b, rfl⟩
      · exact ⟨x, rfl⟩

end Min

section MinOrder

variable {α β : Type*} [LinearOrder β] [DecidableLT β] {key : α → β} {items : List α} {a b : α}

theorem le_of_minByKey (h : minByKey key items = some a) (hb : b ∈ items) : key a ≤ key b := by
  induction items generalizing a with
  | nil => cases hb
  | cons x items ih =>
    unfold minByKey at h
    split at h
    · rename_i hnone
      cases h
      cases items with
      | nil => rw [List.mem_singleton.mp hb]
      | cons y items =>
        obtain ⟨c, hc⟩ := exists_minByKey key (List.cons_ne_nil y items)
        rw [hc] at hnone
        cases hnone
    · rename_i c hc
      split_ifs at h with hlt
      · cases h
        rcases List.mem_cons.mp hb with rfl | hb
        · exact hlt.le
        · exact ih hc hb
      · cases h
        rcases List.mem_cons.mp hb with rfl | hb
        · exact le_rfl
        · exact (not_lt.mp hlt).trans (ih hc hb)

end MinOrder

/-! ## One pass with a bounded heap -/

section Heap

variable {α : Type*} [LinearOrder α]

/-- `BinaryHeap::push`, on the heap's content with the greatest item first. -/
def push (x : α) (heap : List α) : List α := heap.orderedInsert (· ≥ ·) x

/-- Offer `x` to a heap of at most `k` items: a full heap gives up its greatest for it. -/
def offer (k : Nat) (heap : List α) (x : α) : List α :=
  if heap.length < k then push x heap
  else
    match heap with
    | top :: rest => if top > x then push x rest else heap
    | [] => []

/-- The `k` smallest items, by one pass. -/
def smallest (k : Nat) (items : List α) : List α := items.foldl (offer k) []

/-- `heap` holds the `k` smallest of `seen`, greatest first. -/
structure Holds (k : Nat) (seen heap rest : List α) : Prop where
  perm : (heap ++ rest).Perm seen
  sorted : heap.Pairwise (· ≥ ·)
  le : ∀ a ∈ heap, ∀ b ∈ rest, a ≤ b
  length : heap.length = min k seen.length

theorem sorted_push {heap : List α} (h : heap.Pairwise (· ≥ ·)) (x : α) :
    (push x heap).Pairwise (· ≥ ·) := h.orderedInsert x heap

theorem mem_push {x y : α} {heap : List α} : y ∈ push x heap ↔ y = x ∨ y ∈ heap :=
  List.mem_orderedInsert (· ≥ ·)

theorem perm_push (x : α) (heap : List α) : (push x heap).Perm (x :: heap) :=
  List.perm_orderedInsert (· ≥ ·) x heap

theorem length_push (x : α) (heap : List α) : (push x heap).length = heap.length + 1 :=
  List.orderedInsert_length (· ≥ ·) heap x

section Step

variable {k : Nat} {seen heap rest : List α}

variable {x : α}

/-- What is kept and turned away once `x` is seen, by what it was before. -/
theorem Holds.perm_seen (h : Holds k seen heap rest) {all : List α}
    (hall : all.Perm (x :: (heap ++ rest))) : all.Perm (seen ++ [x]) :=
  hall.trans ((h.perm.cons x).trans (List.perm_append_singleton x seen).symm)

theorem Holds.length_add (h : Holds k seen heap rest) :
    heap.length + rest.length = seen.length := by
  rw [← List.length_append, h.perm.length_eq]

/-- While there is room, nothing has been turned away yet. -/
theorem Holds.push (h : Holds k seen heap rest) (hroom : heap.length < k) (x : α) :
    Holds k (seen ++ [x]) (push x heap) [] := by
  have hlen := h.length
  have hadd := h.length_add
  have hrest : rest = [] := List.length_eq_zero_iff.mp (by omega)
  refine ⟨h.perm_seen ?_, sorted_push h.sorted x, by simp, ?_⟩
  · rw [hrest, List.append_nil, List.append_nil]
    exact perm_push x heap
  · rw [length_push, List.length_append, List.length_singleton]
    omega

/-- A full heap turns away an item that no kept one exceeds. -/
theorem Holds.refuse (h : Holds k seen heap rest) (hfull : ¬ heap.length < k)
    (hx : ∀ a ∈ heap, a ≤ x) : Holds k (seen ++ [x]) heap (x :: rest) := by
  have hlen := h.length
  refine ⟨h.perm_seen List.perm_middle, h.sorted, ?_, ?_⟩
  · intro a ha b hb
    rcases List.mem_cons.mp hb with rfl | hb
    · exact hx a ha
    · exact h.le a ha b hb
  · rw [List.length_append, List.length_singleton]
    omega

/-- A full heap gives up its greatest item for a smaller one. -/
theorem Holds.displace {top : α} {low : List α} (h : Holds k seen (top :: low) rest)
    (hfull : ¬ (top :: low).length < k) (hx : x < top) :
    Holds k (seen ++ [x]) (Select.push x low) (top :: rest) := by
  have hlen := h.length
  have hsort := List.pairwise_cons.mp h.sorted
  refine ⟨h.perm_seen ?_, sorted_push hsort.2 x, ?_, ?_⟩
  · exact ((perm_push x low).append_right (top :: rest)).trans (List.perm_middle.cons x)
  · intro a ha b hb
    have hatop : a ≤ top := by
      rcases mem_push.mp ha with rfl | ha
      · exact hx.le
      · exact hsort.1 a ha
    rcases List.mem_cons.mp hb with rfl | hb
    · exact hatop
    · exact hatop.trans (h.le top List.mem_cons_self b hb)
  · rw [length_push, List.length_append, List.length_singleton]
    rw [List.length_cons] at hlen hfull
    omega

theorem Holds.offer (h : Holds k seen heap rest) (x : α) :
    ∃ rest', Holds k (seen ++ [x]) (offer k heap x) rest' := by
  unfold Select.offer
  split
  case isTrue hroom => exact ⟨[], h.push hroom x⟩
  case isFalse hfull =>
    cases heap with
    | nil => exact ⟨x :: rest, h.refuse hfull (by simp)⟩
    | cons top low =>
      dsimp only
      split
      case isTrue hlt => exact ⟨top :: rest, h.displace hfull hlt⟩
      case isFalse hle =>
        have htop : ∀ a ∈ low, a ≤ top := (List.pairwise_cons.mp h.sorted).1
        refine ⟨x :: rest, h.refuse hfull fun a ha => ?_⟩
        rcases List.mem_cons.mp ha with rfl | ha
        · exact not_lt.mp hle
        · exact (htop a ha).trans (not_lt.mp hle)

end Step

theorem holds_foldl {k : Nat} (items : List α) {seen heap rest : List α}
    (h : Holds k seen heap rest) :
    ∃ rest', Holds k (seen ++ items) (items.foldl (Select.offer k) heap) rest' := by
  induction items generalizing seen heap rest with
  | nil => exact ⟨rest, by simpa using h⟩
  | cons x items ih =>
    obtain ⟨rest', h'⟩ := h.offer x
    have := ih h'
    simpa using this

/-- **The pass keeps the smallest.** What is kept and what is turned away make up the items,
nothing kept is greater than anything turned away, and `k` items are kept if there are `k`. -/
theorem smallest_spec (k : Nat) (items : List α) :
    ∃ rest, (smallest k items ++ rest).Perm items ∧
      (∀ a ∈ smallest k items, ∀ b ∈ rest, a ≤ b) ∧
      (smallest k items).length = min k items.length := by
  have h₀ : Holds k ([] : List α) [] [] := ⟨by simp, by simp, by simp, by simp⟩
  obtain ⟨rest, h⟩ := holds_foldl items h₀
  exact ⟨rest, h.perm, h.le, h.length⟩

theorem smallest_subset (k : Nat) (items : List α) : smallest k items ⊆ items := by
  obtain ⟨rest, hperm, -, -⟩ := smallest_spec k items
  exact fun x hx => hperm.subset (List.mem_append_left _ hx)

end Heap

end Chromulate.Select
