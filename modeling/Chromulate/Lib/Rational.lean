import Mathlib.Algebra.Order.Ring.Rat
import Mathlib.Tactic.Linarith

/-!
# Rational numbers and points that keep apart

`F64` is an `f64` whose finite values are taken for the rationals they are.

Points that keep a distance from each other are at most so many in an interval
(`Apart.countP_le`). This carries over to whatever lags behind such points by at most a fixed
slack (`Apart.countP_lagging_le`).
-/

namespace Chromulate

/-- An `f64`: a rational, or infinite or not a number. -/
inductive F64 where
  | finite (value : ℚ)
  | nonFinite
  deriving DecidableEq

namespace Spacing

variable {K : Type*} [Field K] [LinearOrder K] [IsStrictOrderedRing K]
  {gap lo hi slack : K} {l points : List K}

/-- Points in order, each at least `gap` after the one before. -/
def Apart (gap : K) (l : List K) : Prop := l.Pairwise fun a b => a + gap ≤ b

theorem Apart.length_le (h : Apart gap l) (hmem : ∀ x ∈ l, lo ≤ x ∧ x ≤ hi)
    (hlo : lo ≤ hi + gap) : l.length * gap ≤ hi - lo + gap := by
  induction l generalizing lo with
  | nil =>
    rw [List.length_nil, Nat.cast_zero, zero_mul]
    linarith
  | cons a l ih =>
    obtain ⟨hfirst, hrest⟩ := List.pairwise_cons.mp h
    obtain ⟨⟨ha, ha'⟩, hl⟩ := List.forall_mem_cons.mp hmem
    -- What follows the first point lies in what is left of the interval after its gap.
    have hlength := ih hrest (fun x hx => ⟨hfirst x hx, (hl x hx).2⟩) (by linarith)
    rw [List.length_cons, Nat.cast_succ, add_mul, one_mul]
    linarith

/-- **Points that keep apart are few in any interval.** -/
theorem Apart.countP_le (h : Apart gap l) (hlo : lo ≤ hi + gap) :
    (l.countP fun x => lo ≤ x ∧ x ≤ hi) * gap ≤ hi - lo + gap := by
  rw [List.countP_eq_length_filter]
  refine Apart.length_le (h.filter _) (fun x hx => ?_) hlo
  exact of_decide_eq_true (List.mem_filter.mp hx).2

theorem countP_le_countP {α β : Type*} {R : α → β → Prop} {p : α → Bool} {q : β → Bool}
    {xs : List α} {ys : List β} (h : List.Forall₂ R xs ys) (himp : ∀ x y, R x y → q y → p x) :
    ys.countP q ≤ xs.countP p := by
  induction h with
  | nil => exact Nat.le_refl _
  | @cons x y xs ys hxy _ ih =>
    rw [List.countP_cons, List.countP_cons]
    have hhead : (if q y then 1 else 0) ≤ if p x then 1 else 0 := by
      split_ifs with hy hx
      · exact Nat.le_refl _
      · exact absurd (himp x y hxy hy) hx
      · exact Nat.zero_le _
      · exact Nat.le_refl _
    exact Nat.add_le_add ih hhead

/-- **What lags behind points that keep apart** is no denser than the points, up to the lag. -/
theorem Apart.countP_lagging_le (h : Apart gap points) (hgap : 0 < gap) (hslack : 0 ≤ slack)
    (hl : List.Forall₂ (fun point x => point ≤ x ∧ x ≤ point + slack) points l)
    (hlo : lo ≤ hi) :
    (l.countP fun x => lo ≤ x ∧ x ≤ hi) * gap ≤ hi - lo + slack + gap := by
  have hcount : l.countP (fun x => lo ≤ x ∧ x ≤ hi) ≤
      points.countP fun x => lo - slack ≤ x ∧ x ≤ hi := by
    refine countP_le_countP hl fun x y hxy hy => ?_
    rw [decide_eq_true_eq] at hy ⊢
    exact ⟨by linarith, by linarith⟩
  have hpoints : (points.countP fun x => lo - slack ≤ x ∧ x ≤ hi) * gap ≤
      hi - (lo - slack) + gap := h.countP_le (by linarith)
  have hcast : ((l.countP fun x => lo ≤ x ∧ x ≤ hi : Nat) : K) ≤
      (points.countP fun x => lo - slack ≤ x ∧ x ≤ hi : Nat) := by exact_mod_cast hcount
  have hmul := mul_le_mul_of_nonneg_right hcast (le_of_lt hgap)
  linarith

end Spacing

end Chromulate
