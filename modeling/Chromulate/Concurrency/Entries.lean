import Chromulate.Concurrency.Adaptive

/-!
# The entries of a controller

`Known` is what makes a new entry new: nobody has a handle to an entry that was not made.
`heldBy` counts the permits out of an entry, which are the callers that hold one of its slots.
-/

namespace Chromulate.Concurrency

namespace World

variable {shared : Shared} {w w' : World} {i x : Nat} {task : Task} {p : Point} {move : Move}

theorem mem_tasks_put {t : Task} (h : t ∈ (w.put i task p).tasks) :
    t ∈ w.tasks ∨ t = { task with point := p } :=
  List.mem_or_eq_of_mem_set h

theorem mem_notifyWaiters {t : Task} (h : t ∈ (w.notifyWaiters x).tasks) :
    ∃ t' ∈ w.tasks, t = { t' with point := t'.point.notify x } := by
  obtain ⟨t', ht', rfl⟩ := List.mem_map.mp h
  exact ⟨t', ht', rfl⟩

theorem handle_notify (point : Point) (x : Nat) : (point.notify x).handle = point.handle := by
  cases point <;> rfl

/-! ## Entries that were not made -/

/-- Handles are to entries that were made, and an entry that was not made is as new. -/
structure Known (config : Config) (w : World) : Prop where
  tasks : ∀ task ∈ w.tasks, ∀ x, task.point.handle = some x → x < w.made
  store : ∀ authority x, w.store.lookup authority = some x → x < w.made
  origins : ∀ x, w.made ≤ x → w.origins x = Origin.new config

theorem known_new (config : Config) (now : Instant) : (new config now).Known config where
  tasks _ h := by cases h
  store authority x h := by simp [new] at h
  origins _ _ := rfl

variable {config : Config}

/-- Making the next entry does not change it: it was as new before. -/
theorem Known.update_made (h : w.Known config) :
    Function.update w.origins w.made (Origin.new config) = w.origins := by
  rw [Function.update_eq_self_iff]
  exact (h.origins w.made (Nat.le_refl _)).symm

/-- A caller that keeps its handle is still known. -/
theorem Known.put (h : w.Known config) (htask : w.tasks[i]? = some task)
    (hpoint : ∀ x, p.handle = some x → task.point.handle = some x ∨ x < w.made) :
    (w.put i task p).Known config where
  tasks t ht x hx := by
    rcases mem_tasks_put ht with ht | rfl
    · exact h.tasks t ht x hx
    · rcases hpoint x hx with hx | hx
      · exact h.tasks task (List.mem_of_getElem? htask) x hx
      · exact hx
  store := h.store
  origins := h.origins

theorem Known.write (h : w.Known config) (hx : x < w.made) (origin : Origin) :
    (w.write x origin).Known config where
  tasks := h.tasks
  store := h.store
  origins y hy := by
    have hne : y ≠ x := by
      have : w.made ≤ y := hy
      omega
    show Function.update w.origins x origin y = _
    rw [Function.update_of_ne hne]
    exact h.origins y hy

theorem Shift.handle {q : Point} (h : Shift p q) (x : Nat) (hx : q.handle = some x) :
    p.handle = some x := by
  cases h with
  | paid => exact hx
  | enabled => exact hx
  | woken => exact hx
  | cancelled _ => cases hx

theorem Known.step (h : w.Known shared.config) (move : Move) :
    (w.step shared move).Known shared.config := by
  have hs := stepped shared w move
  generalize w.step shared move = w' at hs
  have hmade : ∀ {i : Nat} {task : Task} {x : Nat}, w.tasks[i]? = some task →
      task.point.handle = some x → x < w.made :=
    fun htask hx => h.tasks _ (List.mem_of_getElem? htask) _ hx
  cases hs with
  | still _ => exact h
  | arrived authority =>
    refine ⟨fun t ht x hx => ?_, h.store, h.origins⟩
    rcases List.mem_append.mp ht with ht | ht
    · exact h.tasks t ht x hx
    · rw [List.mem_singleton.mp ht] at hx
      cases hx
  | @found i task entry _ htask _ hlookup lastUseSeq seq =>
    have hw : Known shared.config { w with lastUseSeq := lastUseSeq, seq := seq } :=
      ⟨h.tasks, h.store, h.origins⟩
    refine hw.put htask fun x hx => Or.inr ?_
    cases hx
    exact h.store _ _ hlookup
  | @made i task locked inserted htask _ _ hinserted =>
    subst hinserted
    refine Known.put (w := { World.insertNew shared _ task.authority w.seq with
      store := Eviction.removeAll _ _ }) ⟨fun t ht x hx => ?_, fun a x ha => ?_, ?_⟩ htask ?_
    · exact Nat.lt_succ_of_lt (h.tasks t ht x hx)
    · rw [Eviction.lookup_removeAll] at ha
      split_ifs at ha
      by_cases hk : a = task.authority
      · subst hk
        rw [insertNew, AList.lookup_insert] at ha
        cases ha
        exact Nat.lt_succ_self _
      · rw [insertNew, AList.lookup_insert_ne hk] at ha
        exact Nat.lt_succ_of_lt (h.store a x ha)
    · intro x hx
      have hx : w.made + 1 ≤ x := hx
      have hne : x ≠ w.made := by omega
      show Function.update w.origins w.made _ x = _
      rw [Function.update_of_ne hne]
      exact h.origins x (by omega)
    · intro x hx
      cases hx
      exact Or.inr (Nat.lt_succ_self _)
  | passed htask hpoint _ _ | queued htask hpoint | slept htask hpoint _ =>
    exact h.put htask fun x hx => Or.inl (by rw [hpoint]; exact hx)
  | shifted htask _ hshift => exact h.put htask fun x hx => Or.inl (hshift.handle x hx)
  | @took i task _ entry waited taken started htask hpoint _ =>
    have hhandle : task.point.handle = some entry := by
      rcases hpoint with hpoint | ⟨n, hpoint⟩ <;> rw [hpoint] <;> rfl
    refine (h.write (hmade htask hhandle) taken).put htask fun x hx => Or.inl ?_
    rw [hhandle]
    exact hx
  | completed htask hpoint | dropped htask hpoint =>
    refine (h.write (hmade htask (by rw [hpoint]; rfl)) _).put htask fun x hx => Or.inl ?_
    rw [hpoint]
    exact hx
  | notified htask _ =>
    have hput := h.put (p := .gone) htask fun x hx => by cases hx
    refine ⟨fun t ht x hx => ?_, hput.store, hput.origins⟩
    obtain ⟨t', ht', rfl⟩ := mem_notifyWaiters ht
    exact hput.tasks t' ht' x (by rwa [handle_notify] at hx)
  | forgot authority =>
    refine ⟨h.tasks, fun a x ha => ?_, h.origins⟩
    exact h.store a x (Table.lookup_erase_eq_some.mp ha).2
  | advanced span => exact ⟨h.tasks, h.store, h.origins⟩

/-! ## An entry and its permits -/

/-- How many callers hold a slot of an entry. -/
def heldBy (w : World) (x : Nat) : Nat := w.tasks.countP fun task => task.point.holds == some x

theorem heldBy_put (htask : w.tasks[i]? = some task) (x : Nat) :
    (w.put i task p).heldBy x =
      w.heldBy x - (if task.point.holds = some x then 1 else 0) +
        (if p.holds = some x then 1 else 0) := by
  obtain ⟨hi, rfl⟩ := List.getElem?_eq_some_iff.mp htask
  unfold heldBy World.put
  rw [List.countP_set hi]
  simp only [beq_iff_eq]

theorem holds_notify (point : Point) (x : Nat) : (point.notify x).holds = point.holds := by
  cases point <;> rfl

theorem heldBy_notifyWaiters (w : World) (y x : Nat) :
    (w.notifyWaiters y).heldBy x = w.heldBy x := by
  unfold heldBy notifyWaiters
  rw [List.countP_map]
  apply List.countP_congr
  intro task _
  simp [holds_notify]

theorem Shift.holds {q : Point} (h : Shift p q) (hp : p.holds = none) : q.holds = p.holds := by
  cases h with
  | paid => rfl
  | enabled => rfl
  | woken => rfl
  | cancelled _ => exact hp.symm

end World

end Chromulate.Concurrency
