import Mathlib.Data.List.Basic
import Mathlib.Data.List.Infix

/-!
# Where one list occurs in another

`first` is the least position at which a list occurs in another. What is appended to the other does
not change it (`first_append`), and when there is no occurrence yet, it is enough to look at what is
appended and so much before it that an occurrence can reach back (`first_drop`).
-/

namespace Chromulate.Occurrence

variable {α : Type*} {needle front back haystack : List α} {i : Nat}

/-- `needle` stands in `haystack` from position `i` on. -/
def At (needle haystack : List α) (i : Nat) : Prop := needle <+: haystack.drop i

theorem At.le (h : At needle haystack i) (hne : needle ≠ []) :
    i + needle.length ≤ haystack.length := by
  have hlength := h.length_le
  rw [List.length_drop] at hlength
  have := List.length_pos_iff.mpr hne
  omega

theorem at_append (h : i + needle.length ≤ front.length) :
    At needle (front ++ back) i ↔ At needle front i := by
  have hdrop : (front ++ back).drop i = front.drop i ++ back :=
    List.drop_append_of_le_length (by omega)
  rw [At, At, hdrop]
  constructor
  · intro hat
    refine List.prefix_of_prefix_length_le hat (List.prefix_append _ _) ?_
    rw [List.length_drop]
    omega
  · exact fun hat => hat.trans (List.prefix_append _ _)

theorem at_drop {start : Nat} :
    At needle (haystack.drop start) i ↔ At needle haystack (start + i) := by
  rw [At, At, List.drop_drop]

variable [DecidableEq α]

/-- The first position at which `needle` stands in `haystack`. -/
def first (needle haystack : List α) : Option Nat :=
  (List.range (haystack.length + 1)).find? fun i => needle.isPrefixOf (haystack.drop i)

theorem first_eq_some (hne : needle ≠ []) :
    first needle haystack = some i ↔
      At needle haystack i ∧ ∀ j, j < i → ¬ At needle haystack j := by
  simp only [first, List.find?_range_eq_some, List.isPrefixOf_iff_prefix, Bool.not_eq_true',
    ← Bool.not_eq_true, List.mem_range]
  constructor
  · rintro ⟨hat, -, hbefore⟩
    exact ⟨hat, hbefore⟩
  · rintro ⟨hat, hbefore⟩
    have := hat.le hne
    exact ⟨hat, by omega, hbefore⟩

theorem first_eq_none (hne : needle ≠ []) :
    first needle haystack = none ↔ ∀ i, ¬ At needle haystack i := by
  simp only [first, List.find?_eq_none, List.isPrefixOf_iff_prefix, List.mem_range]
  constructor
  · intro h i hat
    have := hat.le hne
    exact h i (by omega) hat
  · exact fun h i _ => h i

theorem first_append (hne : needle ≠ []) (h : first needle front = some i) :
    first needle (front ++ back) = some i := by
  rw [first_eq_some hne] at h ⊢
  have hle := h.1.le hne
  refine ⟨(at_append hle).mpr h.1, fun j hj hat => ?_⟩
  exact h.2 j hj ((at_append (by omega)).mp hat)

/-- A first occurrence that ends in the front part is one of the front part. -/
theorem first_of_append (hne : needle ≠ []) (h : first needle (front ++ back) = some i)
    (hle : i + needle.length ≤ front.length) : first needle front = some i := by
  rw [first_eq_some hne] at h ⊢
  refine ⟨(at_append hle).mp h.1, fun j hj hat => ?_⟩
  exact h.2 j hj ((at_append (by omega)).mpr hat)

/-- With no occurrence in the front part, the first one is found from where it can reach into what
is appended. -/
theorem first_drop (hne : needle ≠ []) (h : first needle front = none) {start : Nat}
    (hstart : start + (needle.length - 1) ≤ front.length ∨ start = 0) :
    (first needle ((front ++ back).drop start)).map (start + ·) = first needle (front ++ back) := by
  rw [first_eq_none hne] at h
  have hlength := List.length_pos_iff.mpr hne
  -- an occurrence before `start` would lie in the front part
  have hearly : ∀ j, j < start → ¬ At needle (front ++ back) j := by
    intro j hj hat
    exact h j ((at_append (by omega)).mp hat)
  cases hfound : first needle ((front ++ back).drop start) with
  | none =>
    rw [first_eq_none hne] at hfound
    refine ((first_eq_none hne).mpr fun j hat => ?_).symm
    by_cases hj : j < start
    · exact hearly j hj hat
    · exact hfound (j - start) (at_drop.mpr (by rwa [Nat.add_sub_cancel' (not_lt.mp hj)]))
  | some i =>
    rw [first_eq_some hne] at hfound
    refine ((first_eq_some hne).mpr ⟨at_drop.mp hfound.1, fun j hj hat => ?_⟩).symm
    by_cases hbefore : j < start
    · exact hearly j hbefore hat
    · refine hfound.2 (j - start) (by omega) (at_drop.mpr ?_)
      rwa [Nat.add_sub_cancel' (not_lt.mp hbefore)]

end Chromulate.Occurrence
