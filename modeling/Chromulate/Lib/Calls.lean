import Mathlib.Data.List.Basic

/-!
# Calls that overlap

A shared object one of whose methods takes several atomic steps, called any number of times, each
call stepping when it likes, while other things happen to the object in between. A call is named
by its position; it stands at a program point or has returned.

`run_rule` is the rule of induction over such a run for a property of the object and of each call:
a call that begins has it, a step keeps the stepping call's and every other's, and so does what
happens in between. Steps may be assumed to meet a condition (`meets`).
-/

namespace Chromulate.Calls

/-- A method: where a call of it begins, and what one step does. -/
structure Method (σ π κ ι ρ : Type*) where
  enter : σ → κ → π ⊕ ρ
  step : σ → π → ι → σ × (π ⊕ ρ)

/-- The object and the calls made so far. -/
structure World (σ π ρ : Type*) where
  shared : σ
  calls : List (π ⊕ ρ)

/-- What can happen next. -/
inductive Move (κ ι α : Type*) where
  | call (arg : κ)
  | step (i : Nat) (input : ι)
  | act (action : α)
  deriving DecidableEq

variable {σ π κ ι ρ α : Type*}

namespace World

/-- What has been returned. -/
def returned (w : World σ π ρ) : List ρ := w.calls.filterMap Sum.getRight?

variable (method : Method σ π κ ι ρ) (act : σ → α → σ)

/-- One move. A step of a call that has returned, or was never made, does nothing. -/
def move (w : World σ π ρ) : Move κ ι α → World σ π ρ
  | .call arg => { w with calls := w.calls ++ [method.enter w.shared arg] }
  | .step i input =>
    match w.calls[i]? with
    | some (.inl point) =>
      let (shared, next) := method.step w.shared point input
      { shared := shared, calls := w.calls.set i next }
    | _ => w
  | .act action => { w with shared := act w.shared action }

def run (w : World σ π ρ) (moves : List (Move κ ι α)) : World σ π ρ :=
  moves.foldl (move method act) w

/-- Every move of a run meets a condition on the world it starts from. -/
def meets (condition : World σ π ρ → Move κ ι α → Bool) : World σ π ρ → List (Move κ ι α) → Bool
  | _, [] => true
  | w, m :: moves => condition w m && meets condition (w.move method act m) moves

variable {method act} {condition : World σ π ρ → Move κ ι α → Bool}

variable {w : World σ π ρ} {moves : List (Move κ ι α)}

theorem move_step {i : Nat} {point : π} (h : w.calls[i]? = some (.inl point)) (input : ι) :
    w.move method act (.step i input) =
      ⟨(method.step w.shared point input).1,
        w.calls.set i (method.step w.shared point input).2⟩ := by
  simp only [move, h]

theorem move_step_of_not {i : Nat} (h : ∀ point, w.calls[i]? ≠ some (.inl point)) (input : ι) :
    w.move method act (.step i input) = w := by
  simp only [move]

theorem mem_returned {r : ρ} : r ∈ w.returned ↔ .inr r ∈ w.calls := by
  simp [returned, List.mem_filterMap]

theorem meets_true (w : World σ π ρ) (moves : List (Move κ ι α)) :
    w.meets method act (fun _ _ => true) moves := by
  induction moves generalizing w with
  | nil => rfl
  | cons m moves ih => exact ih (w.move method act m)

theorem run_append (w : World σ π ρ) (moves later : List (Move κ ι α)) :
    w.run method act (moves ++ later) = (w.run method act moves).run method act later :=
  List.foldl_append

theorem meets_append (w : World σ π ρ) (moves later : List (Move κ ι α)) :
    w.meets method act condition (moves ++ later) ↔
      w.meets method act condition moves ∧
        (w.run method act moves).meets method act condition later := by
  induction moves generalizing w with
  | nil => simp [meets, run]
  | cons m moves ih =>
    simp only [List.cons_append, meets, Bool.and_eq_true, ih (w.move method act m), and_assoc]
    rfl

theorem run_induction (Inv : World σ π ρ → Prop)
    (step : ∀ w m, Inv w → condition w m → Inv (w.move method act m))
    (hmeets : w.meets method act condition moves) (h : Inv w) : Inv (w.run method act moves) := by
  induction moves generalizing w with
  | nil => exact h
  | cons m moves ih =>
    simp only [meets, Bool.and_eq_true] at hmeets
    exact ih hmeets.2 (step w m h hmeets.1)

/-- If a move keeps an invariant exactly when it meets `condition`, then the invariant holds at
every moment of a run exactly when all moves of the run meet it. -/
theorem forall_prefix_iff_meets (Inv : World σ π ρ → Prop)
    {granted : World σ π ρ → Move κ ι α → Bool} (step : ∀ w m, Inv w → granted w m →
      (Inv (w.move method act m) ↔ condition w m = true))
    (hgranted : w.meets method act granted moves) (h : Inv w) :
    (∀ front, front <+: moves → Inv (w.run method act front)) ↔
      w.meets method act condition moves := by
  induction moves generalizing w with
  | nil =>
    refine iff_of_true (fun front hfront => ?_) rfl
    rw [List.prefix_nil.mp hfront]
    exact h
  | cons m moves ih =>
    simp only [meets, Bool.and_eq_true] at hgranted ⊢
    have hstep := step w m h hgranted.1
    constructor
    · intro hall
      have hnext : Inv (w.move method act m) := hall [m] ⟨moves, rfl⟩
      refine ⟨hstep.mp hnext, (ih hgranted.2 hnext).mp fun front hfront => ?_⟩
      exact hall (m :: front) (List.cons_prefix_cons.mpr ⟨rfl, hfront⟩)
    · rintro ⟨hcond, hrest⟩ front hfront
      have hnext := hstep.mpr hcond
      cases front with
      | nil => exact h
      | cons first front =>
        obtain ⟨rfl, htail⟩ := List.cons_prefix_cons.mp hfront
        exact (ih hgranted.2 hnext).mpr hrest front htail

/-- **The rule.** `Obj` is what the object keeps, `Call` what every call keeps. -/
theorem run_rule (Obj : σ → Prop) (Call : σ → π ⊕ ρ → Prop)
    (enter : ∀ s arg, Obj s → Call s (method.enter s arg))
    (own : ∀ w i point input, Obj w.shared → w.calls[i]? = some (.inl point) →
      Call w.shared (.inl point) → condition w (.step i input) →
      Obj (method.step w.shared point input).1 ∧
        Call (method.step w.shared point input).1 (method.step w.shared point input).2)
    (other : ∀ w i j point input call, Obj w.shared → w.calls[i]? = some (.inl point) →
      w.calls[j]? = some call → j ≠ i → Call w.shared call → condition w (.step i input) →
      Call (method.step w.shared point input).1 call)
    (between : ∀ s action, Obj s → Obj (act s action) ∧
      ∀ call, Call s call → Call (act s action) call) (hmeets : w.meets method act condition moves)
    (hobj : Obj w.shared) (hcalls : ∀ call ∈ w.calls, Call w.shared call) :
    Obj (w.run method act moves).shared ∧
      ∀ call ∈ (w.run method act moves).calls, Call (w.run method act moves).shared call := by
  refine run_induction (fun w => Obj w.shared ∧ ∀ call ∈ w.calls, Call w.shared call) ?_ hmeets
    ⟨hobj, hcalls⟩
  intro w m ⟨hobj, hcalls⟩ hcond
  cases m with
  | call arg =>
    refine ⟨hobj, fun call hmem => ?_⟩
    rcases List.mem_append.mp hmem with hold | hnew
    · exact hcalls call hold
    · rw [List.mem_singleton.mp hnew]
      exact enter w.shared arg hobj
  | act action => exact ⟨(between _ action hobj).1, fun call hmem =>
    (between _ action hobj).2 call (hcalls call hmem)⟩
  | step i input =>
    simp only [move]
    split
    · rename_i point hpoint
      have hmine := hcalls _ (List.mem_of_getElem? hpoint)
      obtain ⟨hobj', hmine'⟩ := own w i point input hobj hpoint hmine hcond
      refine ⟨hobj', fun call hmem => ?_⟩
      obtain ⟨j, hj⟩ := List.mem_iff_getElem?.mp hmem
      rw [List.getElem?_set] at hj
      split_ifs at hj with heq hlt
      · cases hj
        exact hmine'
      · exact other w i j point input call hobj hpoint hj (Ne.symm heq)
          (hcalls call (List.mem_of_getElem? hj)) hcond
    · exact ⟨hobj, hcalls⟩

/-! ### A method inside another -/

section Inside

variable {σ' π' κ' ι' ρ' α' : Type*}

/-- How an outer method and its object show an inner one. -/
structure View (σ π κ ι ρ α σ' π' κ' ι' ρ' α' : Type*) where
  object : σ → σ'
  call : π ⊕ ρ → π' ⊕ ρ'
  arg : κ → κ'
  input : ι → ι'
  act : α → Option α'

variable (view : View σ π κ ι ρ α σ' π' κ' ι' ρ' α')

def View.world (w : World σ π ρ) : World σ' π' ρ' := ⟨view.object w.shared, w.calls.map view.call⟩

def View.move : Move κ ι α → Option (Move κ' ι' α')
  | .call arg => some (.call (view.arg arg))
  | .step i input => some (.step i (view.input input))
  | .act action => (view.act action).map .act

variable (method act) (method' : Method σ' π' κ' ι' ρ') (act' : σ' → α' → σ')

/-- Each outer call makes one inner call: it is inside that call, and steps as it does, or past
it, and leaves the inner object alone. -/
structure View.Faithful : Prop where
  enter : ∀ s arg, view.call (method.enter s arg) = method'.enter (view.object s) (view.arg arg)
  inside : ∀ s point input point', view.call (.inl point) = .inl point' →
    (view.object (method.step s point input).1, view.call (method.step s point input).2) =
      method'.step (view.object s) point' (view.input input)
  past : ∀ s point input r, view.call (.inl point) = .inr r →
    view.object (method.step s point input).1 = view.object s ∧
      view.call (method.step s point input).2 = .inr r
  done : ∀ r, ∃ r', view.call (.inr r) = .inr r'
  acts : ∀ s action, view.object (act s action) =
    match view.act action with
    | some action' => act' (view.object s) action'
    | none => view.object s

variable {view method act method' act'}

theorem View.Faithful.world_move (h : view.Faithful method act method' act') (w : World σ π ρ)
    (m : Move κ ι α) :
    view.world (w.move method act m) =
      match view.move m with
      | some m' => (view.world w).move method' act' m'
      | none => view.world w := by
  cases m with
  | call arg => simp [World.move, View.move, View.world, h.enter]
  | act action =>
    simp only [World.move, View.move, View.world, h.acts]
    cases view.act action <;> rfl
  | step i input =>
    simp only [World.move, View.move, View.world, List.getElem?_map]
    cases hcall : w.calls[i]? with
    | none => rfl
    | some call =>
      cases call with
      | inr r =>
        obtain ⟨r', hr⟩ := h.done r
        simp [hr]
      | inl point =>
        cases hseen : view.call (.inl point) with
        | inl point' =>
          have hstep := h.inside w.shared point input point' hseen
          simp [hseen, ← hstep]
        | inr r =>
          -- The inner call has returned: setting it again changes nothing.
          obtain ⟨hobject, hcall'⟩ := h.past w.shared point input r hseen
          have hget : (w.calls.map view.call)[i]? = some (.inr r) := by
            simp [hcall, hseen]
          obtain ⟨_, hself⟩ := List.getElem?_eq_some_iff.mp hget
          simp only [hobject, List.map_set, hcall', Option.map_some, hseen]
          rw [← hself, List.set_getElem_self]

/-- **What is seen of a run is a run.** -/
theorem View.Faithful.world_run (h : view.Faithful method act method' act') (w : World σ π ρ)
    (moves : List (Move κ ι α)) :
    view.world (w.run method act moves) =
      (view.world w).run method' act' (moves.filterMap view.move) := by
  induction moves generalizing w with
  | nil => rfl
  | cons m moves ih =>
    have hstep := ih (w.move method act m)
    rw [h.world_move] at hstep
    cases hm : view.move m with
    | none => simpa [run, hm] using hstep
    | some m' => simpa [run, hm] using hstep

/-- A condition on what is seen is met by the run that is seen. -/
theorem View.Faithful.meets_world (h : view.Faithful method act method' act')
    {condition : World σ' π' ρ' → Move κ' ι' α' → Bool} {w : World σ π ρ}
    {moves : List (Move κ ι α)}
    (hmeets : w.meets method act (fun w m => (view.move m).all (condition (view.world w))) moves) :
    (view.world w).meets method' act' condition (moves.filterMap view.move) := by
  induction moves generalizing w with
  | nil => rfl
  | cons m moves ih =>
    simp only [meets, Bool.and_eq_true] at hmeets
    have hrest := ih hmeets.2
    rw [h.world_move] at hrest
    cases hm : view.move m with
    | none => simpa [hm] using hrest
    | some m' =>
      have hnow : condition (view.world w) m' := by simpa [hm] using hmeets.1
      simpa [hm, meets, hnow] using hrest

end Inside

end World

end Chromulate.Calls
