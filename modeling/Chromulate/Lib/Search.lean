import Chromulate.Lib.Text

/-!
# Searching by halves

A binary search over the positions below a bound, where the probe of a position may fail. The search
of a probe that answers everywhere, and answers in order, ends and finds what there is to find
(`bisect_spec`).
-/

namespace Chromulate.Search

/-- The loop of a binary search, at most so many times round: the position that compares equal.
`none` if a probe fails or the loop is not over in that many rounds. -/
def bisect (probe : Nat → Option Ordering) : Nat → Nat → Nat → Option (Option Nat)
  | 0, low, high => if low < high then none else some none
  | fuel + 1, low, high =>
    if low < high then do
      let middle := low + (high - low) / 2
      match ← probe middle with
      | .lt => bisect probe fuel (middle + 1) high
      | .gt => bisect probe fuel low middle
      | .eq => some (some middle)
    else some none

/-- A probe that answers below a bound, first `lt`, then `eq`, then `gt`. -/
structure Ordered (probe : Nat → Option Ordering) (order : Nat → Ordering) (bound : Nat) :
    Prop where
  answers : ∀ i, i < bound → probe i = some (order i)
  lower : ∀ i j, i < j → j < bound → order j = .lt → order i = .lt
  upper : ∀ i j, i < j → j < bound → order i = .gt → order j = .gt

/-- What a round keeps: the positions below `low` are too low, those from `high` on too high. -/
structure Bracket (order : Nat → Ordering) (bound low high : Nat) : Prop where
  below : ∀ i, i < low → order i = .lt
  above : ∀ i, high ≤ i → i < bound → order i = .gt

variable {probe : Nat → Option Ordering} {order : Nat → Ordering} {bound low high : Nat}

theorem Bracket.ne_eq (h : Bracket order bound low high) (hle : high ≤ low) {i : Nat}
    (hi : i < bound) : order i ≠ .eq := by
  intro heq
  by_cases hlow : i < low
  · rw [h.below i hlow] at heq
    cases heq
  · rw [h.above i (by omega) hi] at heq
    cases heq

theorem Bracket.raise (h : Bracket order bound low high) (hordered : Ordered probe order bound)
    {middle : Nat} (hmiddle : middle < bound) (hlt : order middle = .lt) :
    Bracket order bound (middle + 1) high where
  below i hi := by
    by_cases heq : i = middle
    · rw [heq, hlt]
    · exact hordered.lower i middle (by omega) hmiddle hlt
  above := h.above

theorem Bracket.cut (h : Bracket order bound low high) (hordered : Ordered probe order bound)
    {middle : Nat} (hgt : order middle = .gt) : Bracket order bound low middle where
  below := h.below
  above i hle hi := by
    by_cases heq : i = middle
    · rw [heq, hgt]
    · exact hordered.upper middle i (by omega) hi hgt

/-- **The search ends and is right**: it finds a position that compares equal if there is one. -/
theorem bisect_spec (h : Ordered probe order bound) (fuel : Nat) (hfuel : high - low ≤ fuel)
    (hhigh : high ≤ bound) (hbracket : Bracket order bound low high) :
    ∃ found, bisect probe fuel low high = some found ∧
      (∀ i, found = some i → i < bound ∧ order i = .eq) ∧
      (found = none → ∀ i, i < bound → order i ≠ .eq) := by
  induction fuel generalizing low high with
  | zero =>
    have hnot : ¬ low < high := by omega
    refine ⟨none, by rw [bisect, if_neg hnot], by simp, fun _ i hi => ?_⟩
    exact hbracket.ne_eq (by omega) hi
  | succ fuel ih =>
    by_cases hlt : low < high
    · have hmiddle : low + (high - low) / 2 < bound := by omega
      have hprobe := h.answers _ hmiddle
      rw [bisect, if_pos hlt]
      simp only [hprobe, Option.bind_eq_bind, Option.bind_some]
      cases horder : order (low + (high - low) / 2) with
      | lt => exact ih (by omega) hhigh (hbracket.raise h hmiddle horder)
      | eq => exact ⟨_, rfl, by rintro i ⟨⟩; exact ⟨hmiddle, horder⟩, by simp⟩
      | gt => exact ih (by omega) (by omega) (hbracket.cut h horder)
    · refine ⟨none, by rw [bisect, if_neg hlt], by simp, fun _ i hi => ?_⟩
      exact hbracket.ne_eq (by omega) hi

end Chromulate.Search
