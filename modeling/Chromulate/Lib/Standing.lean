import Mathlib.Data.List.Basic

/-!
# Values that stay

A place is written to in some of a sequence of steps. What a step writes stays until the next one,
and a step that finds something there writes it again; only a step that finds nothing writes what
it has itself. `Stays.fresh_iff` says when every step has written what it has itself.
-/

namespace Chromulate.Standing

variable {α : Type*}

/-- What stands after some steps: what the last of them that wrote has written. -/
def standing (written : List (Option (List α))) : List α :=
  written.foldl (fun held values => values.getD held) []

theorem standing_concat (written : List (Option (List α))) (last : Option (List α)) :
    standing (written ++ [last]) = last.getD (standing written) := by
  rw [standing, List.foldl_append]
  rfl

/-- Every step writes what stands, or what it has itself when nothing does. -/
def Stays (fresh : Nat → List α) (written : List (Option (List α))) : Prop :=
  ∀ k values, written[k]? = some (some values) →
    values = if standing (written.take k) = [] then fresh k else standing (written.take k)

variable {fresh : Nat → List α} {written : List (Option (List α))} {j k : Nat}

theorem standing_take_succ (written : List (Option (List α))) (k : Nat) :
    standing (written.take (k + 1)) = (written[k]?.getD none).getD (standing (written.take k)) := by
  rw [List.take_add_one]
  cases written[k]? with
  | none => simp
  | some last => exact standing_concat _ last

theorem Stays.stands (h : Stays fresh written) (hle : j ≤ k)
    (hne : standing (written.take j) ≠ []) :
    standing (written.take k) = standing (written.take j) := by
  induction hle with
  | refl => rfl
  | @step k _ ih =>
    rw [standing_take_succ]
    cases hk : written[k]? with
    | none => exact ih
    | some last =>
      cases last with
      | none => exact ih
      | some values =>
        have hvalues := h k values hk
        rw [ih, if_neg hne] at hvalues
        exact hvalues

/-- What stands was what some step had. -/
theorem Stays.source (h : Stays fresh written) (hne : standing (written.take k) ≠ []) :
    ∃ j values, j < k ∧ written[j]? = some (some values) ∧ fresh j = values ∧
      standing (written.take k) = values := by
  induction k with
  | zero => exact absurd rfl hne
  | succ k ih =>
    rw [standing_take_succ] at hne ⊢
    by_cases hbefore : standing (written.take k) = []
    · cases hk : written[k]? with
      | none => exact absurd (by simp [hk, hbefore]) hne
      | some last =>
        cases last with
        | none => exact absurd (by simp [hk, hbefore]) hne
        | some values =>
          have hvalues := h k values hk
          rw [if_pos hbefore] at hvalues
          exact ⟨k, values, Nat.lt_succ_self k, hk, hvalues.symm, rfl⟩
    · obtain ⟨j, values, hj, hwritten, hfresh, hstands⟩ := ih hbefore
      refine ⟨j, values, Nat.lt_succ_of_lt hj, hwritten, hfresh, ?_⟩
      rw [← standing_take_succ, h.stands (Nat.le_succ k) hbefore, hstands]

/-- **Every step has written what it has itself** exactly when what one has is what every later
one has. -/
theorem Stays.fresh_iff (h : Stays fresh written) :
    (∀ k values, written[k]? = some (some values) → values = fresh k) ↔
      ∀ j k earlier later, j < k → written[j]? = some (some earlier) →
        written[k]? = some (some later) → fresh j ≠ [] → fresh k = fresh j := by
  constructor
  · intro hall j k earlier later hlt hj hk hne
    have hearlier := hall j earlier hj
    have hafter : standing (written.take (j + 1)) = fresh j := by
      rw [standing_take_succ, hj]
      exact hearlier
    have hstands : standing (written.take k) = fresh j :=
      (h.stands hlt (hafter.symm ▸ hne)).trans hafter
    have hlater := h k later hk
    rw [hstands, if_neg hne] at hlater
    rw [← hall k later hk, hlater]
  · intro hsame k values hk
    have hvalues := h k values hk
    by_cases hstands : standing (written.take k) = []
    · rw [hvalues, if_pos hstands]
    · obtain ⟨j, earlier, hj, hwritten, hfresh, heq⟩ := h.source hstands
      rw [hvalues, if_neg hstands, heq, ← hfresh]
      refine (hsame j k earlier values hj hwritten hk ?_).symm
      rw [hfresh, ← heq]
      exact hstands

end Chromulate.Standing
