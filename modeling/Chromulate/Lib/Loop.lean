import Mathlib.Data.List.Basic

/-!
# Loops that keep a record

A loop is given by its turn: from a state and an input, what the turn records, and either the
state to go on from or the result. `run` takes one input a turn until the loop ends or the inputs
do.

The invariant of such a loop speaks of the record so far and of the state. `run_rule` is the rule
of induction for it: what each turn shows of its input and its own record, given the invariant,
holds at every position of the whole, where "so far" is the part before the position. When no
record that a turn starts from is longer than a bound, the loop takes at most one turn more
(`length_run_le`) and, given more inputs than the bound, it ends (`isSome_run`).
-/

namespace Chromulate.Loop

variable {σ ι ε ρ : Type*} (turn : σ → ι → ε × (σ ⊕ ρ))

/-- The record of a loop, and its result if it has ended. -/
def run : σ → List ι → List ε × Option ρ
  | _, [] => ([], none)
  | s, i :: inputs =>
    match turn s i with
    | (e, .inl s') => (e :: (run s' inputs).1, (run s' inputs).2)
    | (e, .inr r) => ([e], some r)

/-- Every turn the loop takes meets a condition on the state and the input it starts from. -/
def meets (condition : σ → ι → Bool) : σ → List ι → Bool
  | _, [] => true
  | s, i :: inputs =>
    condition s i &&
      match (turn s i).2 with
      | .inl s' => meets condition s' inputs
      | .inr _ => true

variable {turn} {condition : σ → ι → Bool}

variable {inputs : List ι} {s : σ}

/-- The rule of induction, where "so far" is the turns' inputs and records. -/
theorem run_zip_rule (Inv : List (ι × ε) → σ → Prop) (Holds : List (ι × ε) → ι → ε → Prop)
    (step : ∀ before s i, Inv before s → condition s i →
      Holds before i (turn s i).1 ∧
        ∀ s', (turn s i).2 = .inl s' → Inv (before ++ [(i, (turn s i).1)]) s')
    (hmeets : meets turn condition s inputs) (before : List (ι × ε)) (hinv : Inv before s) {k : Nat}
    {e : ε} (he : (run turn s inputs).1[k]? = some e) :
    ∃ i, inputs[k]? = some i ∧
      Holds (before ++ (inputs.zip (run turn s inputs).1).take k) i e := by
  -- the record grows to the right while the inputs are used up on the left
  induction inputs generalizing s before k with
  | nil => simp [run] at he
  | cons i inputs ih =>
    rw [meets, Bool.and_eq_true] at hmeets
    obtain ⟨hhere, hnext⟩ := step before s i hinv hmeets.1
    unfold run at he ⊢
    split at he
    · rename_i first s' hturn
      rw [hturn] at hhere hnext hmeets
      cases k with
      | zero =>
        cases he
        exact ⟨i, rfl, by simpa using hhere⟩
      | succ k =>
        obtain ⟨j, hj, hrest⟩ := ih hmeets.2 (before ++ [(i, first)]) (hnext s' rfl) he
        exact ⟨j, hj, by simpa [List.append_assoc] using hrest⟩
    · rename_i first r hturn
      rw [hturn] at hhere
      cases k with
      | zero =>
        cases he
        exact ⟨i, rfl, by simpa using hhere⟩
      | succ k => simp at he

theorem length_run_le_inputs (s : σ) (inputs : List ι) :
    (run turn s inputs).1.length ≤ inputs.length := by
  induction inputs generalizing s with
  | nil => exact Nat.le_refl _
  | cons i inputs ih =>
    unfold run
    split
    · exact Nat.succ_le_succ (ih _)
    · exact Nat.succ_le_succ (Nat.zero_le _)

/-- The rule of induction, where "so far" is the record. -/
theorem run_rule (Inv : List ε → σ → Prop) (Holds : List ε → ι → ε → Prop)
    (step : ∀ before s i, Inv before s → condition s i →
      Holds before i (turn s i).1 ∧
        ∀ s', (turn s i).2 = .inl s' → Inv (before ++ [(turn s i).1]) s')
    (hmeets : meets turn condition s inputs) (hinv : Inv [] s) {k : Nat} {e : ε}
    (he : (run turn s inputs).1[k]? = some e) :
    ∃ i, inputs[k]? = some i ∧ Holds ((run turn s inputs).1.take k) i e := by
  obtain ⟨i, hi, hholds⟩ := run_zip_rule (fun before => Inv (before.map Prod.snd))
    (fun before => Holds (before.map Prod.snd))
    (fun before s i h hcondition => by simpa using step (before.map Prod.snd) s i h hcondition)
    hmeets [] hinv he
  refine ⟨i, hi, ?_⟩
  rwa [List.nil_append, List.map_take, List.map_snd_zip (length_run_le_inputs s inputs)] at hholds

theorem meets_true (s : σ) (inputs : List ι) : meets turn (fun _ _ => true) s inputs := by
  induction inputs generalizing s with
  | nil => rfl
  | cons i inputs ih =>
    rw [meets, Bool.true_and]
    split
    · exact ih _
    · rfl

/-- How a loop ends: in a turn that starts from the invariant, and whose record is the last. -/
theorem run_ends (Inv : List ε → σ → Prop)
    (step : ∀ before s i, Inv before s → ∀ s', (turn s i).2 = .inl s' →
      Inv (before ++ [(turn s i).1]) s') {r : ρ} (hends : (run turn s inputs).2 = some r)
    (before : List ε) (hinv : Inv before s) :
    ∃ past s' i, Inv past s' ∧ (turn s' i).2 = .inr r ∧
      before ++ (run turn s inputs).1 = past ++ [(turn s' i).1] := by
  induction inputs generalizing s before with
  | nil => cases hends
  | cons i inputs ih =>
    unfold run at hends ⊢
    split at hends
    · rename_i first s' hturn
      have hnext : Inv (before ++ [first]) s' := by
        simpa [hturn] using step before s i hinv s' (by rw [hturn])
      obtain ⟨past, last, j, hpast, hlast, hrecord⟩ := ih hends (before ++ [first]) hnext
      exact ⟨past, last, j, hpast, hlast, by simpa using hrecord⟩
    · rename_i first r' hturn
      cases hends
      exact ⟨before, s, i, hinv, by rw [hturn], by rw [hturn]⟩

section Bound

variable (Inv : List ε → σ → Prop) {bound : Nat}
  (step : ∀ before s i, Inv before s → ∀ s', (turn s i).2 = .inl s' →
    Inv (before ++ [(turn s i).1]) s')
  (hbound : ∀ before s, Inv before s → before.length ≤ bound)

include step hbound

theorem length_run_le {s : σ} (inputs : List ι) (before : List ε) (hinv : Inv before s) :
    before.length + (run turn s inputs).1.length ≤ bound + 1 := by
  have hle := hbound before s hinv
  induction inputs generalizing s before with
  | nil => exact Nat.le_succ_of_le hle
  | cons i inputs ih =>
    unfold run
    split
    · rename_i first s' hturn
      have hnext : Inv (before ++ [first]) s' := by
        simpa [hturn] using step before s i hinv s' (by rw [hturn])
      have hrest := ih (before ++ [first]) hnext (hbound _ _ hnext)
      simp only [List.length_append, List.length_cons, List.length_nil] at hrest ⊢
      omega
    · exact Nat.succ_le_succ hle

theorem isSome_run {s : σ} {inputs : List ι} (before : List ε) (hinv : Inv before s)
    (henough : bound < before.length + inputs.length) : (run turn s inputs).2.isSome := by
  induction inputs generalizing s before with
  | nil =>
    have hle := hbound before s hinv
    simp only [List.length_nil] at henough
    omega
  | cons i inputs ih =>
    unfold run
    split
    · rename_i first s' hturn
      refine ih (before ++ [first]) ?_ ?_
      · simpa [hturn] using step before s i hinv s' (by rw [hturn])
      · simp only [List.length_cons, List.length_append, List.length_nil] at henough ⊢
        omega
    · rfl

end Bound

end Chromulate.Loop
