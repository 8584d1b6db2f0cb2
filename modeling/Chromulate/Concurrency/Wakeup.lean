import Chromulate.Concurrency.Pause

/-!
# No lost wake-up

`take_slot` checks, registers with the `Notify`, checks again and only then sleeps; `release`
changes the entry inside its lock and calls `notify_waiters` after it. In between, a caller can be
asleep beside a free slot, but then somebody is on the way to wake it: that is the invariant,
`Attended`.

**Theorem (`no_lost_wakeup`).** In every state any moves reach, cancellations included, if no
release is between its critical section and its call of `notify_waiters`, then no caller that
sleeps unnotified has a free slot to take.
-/

namespace Chromulate.Concurrency

namespace World

variable {shared : Shared} {w : World} {x : Nat}

/-- A release of the entry has yet to call `notify_waiters`. -/
def Releasing (w : World) (x : Nat) : Prop := ∃ task ∈ w.tasks, task.point = .releasing x

/-- Whoever sleeps unnotified is about to be woken, or there is no slot free. -/
def Attended (w : World) : Prop :=
  ∀ task ∈ w.tasks, ∀ x, task.point = .parked x false →
    w.Releasing x ∨ (w.origins x).limit ≤ (w.origins x).inFlight

variable {i y : Nat} {p : Point} {task : Task}

theorem Releasing.put (h : w.Releasing x) (htask : w.tasks[i]? = some task)
    (hpoint : task.point ≠ .releasing x) : (w.put i task p).Releasing x := by
  obtain ⟨t, ht, hreleasing⟩ := h
  obtain ⟨j, hj⟩ := List.mem_iff_getElem?.mp ht
  have hne : i ≠ j := by
    rintro rfl
    cases Option.some.inj (htask.symm.trans hj)
    exact hpoint hreleasing
  refine ⟨t, List.mem_of_getElem? (i := j) ?_, hreleasing⟩
  show (w.tasks.set i _)[j]? = some t
  rw [List.getElem?_set_ne hne, hj]

theorem Attended.put (h : w.Attended) (htask : w.tasks[i]? = some task)
    (hpoint : ∀ x, task.point ≠ .releasing x)
    (hsleeps : ∀ x, p = .parked x false → (w.origins x).limit ≤ (w.origins x).inFlight) :
    (w.put i task p).Attended := by
  intro t ht x hx
  rcases mem_tasks_put ht with ht | rfl
  · exact (h t ht x hx).imp_left fun hrel => hrel.put htask (hpoint x)
  · exact Or.inr (hsleeps x hx)

theorem Shift.ne_releasing {q : Point} (h : Shift p q) (x : Nat) : p ≠ .releasing x := by
  rintro rfl
  cases h with
  | cancelled hawaits => cases hawaits

theorem Shift.ne_parked {q : Point} (h : Shift p q) (x : Nat) (b : Bool) : q ≠ .parked x b := by
  rintro rfl
  cases h

theorem Attended.write {origin : Origin} (h : w.Attended)
    (horigin : (w.origins y).limit ≤ (w.origins y).inFlight → origin.limit ≤ origin.inFlight) :
    (w.write y origin).Attended := by
  intro t ht x hx
  refine (h t ht x hx).imp_right fun hfull => ?_
  show (Function.update w.origins y origin x).limit ≤
    (Function.update w.origins y origin x).inFlight
  by_cases hxy : x = y
  · subst hxy
    rw [Function.update_self]
    exact horigin hfull
  · rwa [Function.update_of_ne hxy]

/-- The critical section of a release leaves somebody on the way to wake the sleepers. -/
theorem Attended.release {started reading : Instant} {signal : Option Signal} (h : w.Attended)
    (htask : w.tasks[i]? = some task) (hpoint : task.point = .holding y started) :
    (w.release shared i task y started reading signal).Attended := by
  intro t ht x hx
  have hi : i < w.tasks.length := (List.getElem?_eq_some_iff.mp htask).1
  rcases mem_tasks_put ht with ht | rfl
  · by_cases hxy : x = y
    · subst hxy
      refine Or.inl ⟨{ task with point := .releasing x }, ?_, rfl⟩
      exact List.mem_set hi _
    · have hne : task.point ≠ .releasing x := by rw [hpoint]; simp
      refine (h t ht x hx).imp (fun hrel => ?_) fun hfull => ?_
      · exact hrel.put (p := .releasing y) htask hne
      · show (Function.update w.origins y _ x).limit ≤ (Function.update w.origins y _ x).inFlight
        rwa [Function.update_of_ne hxy]
  · cases hx

theorem notify_eq_parked {point : Point} (h : point.notify y = .parked x false) :
    point = .parked x false ∧ x ≠ y := by
  cases point with
  | parked e notified =>
    simp only [Point.notify, Point.parked.injEq, Bool.or_eq_false_iff, beq_eq_false_iff_ne] at h
    obtain ⟨rfl, rfl, hne⟩ := h
    exact ⟨rfl, hne⟩
  | _ => cases h

theorem notify_releasing (x y : Nat) : (Point.releasing x).notify y = .releasing x := rfl

/-- **One move leaves nobody unattended.** -/
theorem Attended.step (h : w.Attended) (hknown : w.Known shared.config) (move : Move) :
    (w.step shared move).Attended := by
  have hs := stepped shared w move
  generalize w.step shared move = w' at hs
  cases hs with
  | still _ => exact h
  | arrived authority =>
    intro t ht x hx
    rcases List.mem_append.mp ht with ht | ht
    · refine (h t ht x hx).imp_left fun ⟨t', ht', hrel⟩ => ?_
      exact ⟨t', List.mem_append_left _ ht', hrel⟩
    · rw [List.mem_singleton.mp ht] at hx
      cases hx
  | found htask hpoint _ lastUseSeq seq =>
    have hw : Attended { w with lastUseSeq := lastUseSeq, seq := seq } := h
    exact hw.put htask (fun x => by rw [hpoint]; simp) fun x hx => by cases hx
  | @made i task locked inserted htask hpoint _ hinserted =>
    subst hinserted
    refine Attended.put (w := { World.insertNew shared _ task.authority w.seq with
      store := Eviction.removeAll _ _ }) ?_ htask (fun x => by rw [hpoint]; simp)
      fun x hx => by cases hx
    intro t ht x hx
    refine (h t ht x hx).imp_right fun hfull => ?_
    show (Function.update w.origins w.made (Origin.new shared.config) x).limit ≤
      (Function.update w.origins w.made (Origin.new shared.config) x).inFlight
    rwa [hknown.update_made]
  | passed htask hpoint _ _ | queued htask hpoint =>
    exact h.put htask (fun x => by rw [hpoint]; simp) fun x hx => by cases hx
  | shifted htask _ hshift =>
    exact h.put htask hshift.ne_releasing fun x hx => absurd hx (hshift.ne_parked x false)
  | took started htask hpoint htake =>
    refine (h.write fun hfull => ?_).put htask (fun x => ?_) fun x hx => by cases hx
    · exact absurd (tryTakeSlot_eq_some.mp htake).1 (Nat.not_lt.mpr hfull)
    · rcases hpoint with hpoint | ⟨n, hpoint⟩ <;> rw [hpoint] <;> simp
  | slept htask hpoint hfull =>
    refine h.put htask (fun x => by rw [hpoint]; simp) fun x hx => ?_
    cases hx
    exact hfull
  | completed htask hpoint => exact h.release htask hpoint
  | dropped htask hpoint => exact h.release htask hpoint
  | @notified i task y htask hpoint =>
    intro t ht x hx
    obtain ⟨t', ht', rfl⟩ := mem_notifyWaiters ht
    obtain ⟨hparked, hne⟩ := notify_eq_parked hx
    have hold : t' ∈ w.tasks := by
      rcases mem_tasks_put ht' with ht' | rfl
      · exact ht'
      · cases hparked
    refine (h t' hold x hparked).imp_left fun hrel => ?_
    have hother : task.point ≠ .releasing x := by
      rw [hpoint]
      simpa using Ne.symm hne
    obtain ⟨r, hr, hreleasing⟩ := hrel.put (p := .gone) htask hother
    refine ⟨{ r with point := r.point.notify y }, List.mem_map.mpr ⟨r, hr, rfl⟩, ?_⟩
    rw [hreleasing, notify_releasing]
  | forgot authority => exact h
  | advanced span => exact h

theorem Attended.run (h : w.Attended) (hknown : w.Known shared.config) (moves : List Move) :
    (w.run shared moves).Attended := by
  induction moves generalizing w with
  | nil => exact h
  | cons move moves ih => exact ih (h.step hknown move) (hknown.step move)

/-- **No wake-up is lost.** -/
theorem no_lost_wakeup (config : Config) (ceilingRecovery : Option Duration)
    (scale : Duration → F64 → Duration) (start : Instant) (moves : List Move) (x : Nat) :
    let shared := Shared.new config ceilingRecovery scale
    let w := (new shared.config start).run shared moves
    ¬ w.Releasing x →
      ¬ ∃ task ∈ w.tasks, task.point = .parked x false ∧
        (w.origins x).inFlight < (w.origins x).limit := by
  intro shared w hquiet ⟨task, htask, hparked, hfree⟩
  have hattended : w.Attended :=
    Attended.run (fun t ht => by cases ht) (known_new _ _) moves
  have hfull := (hattended task htask x hparked).resolve_left hquiet
  exact absurd hfree (Nat.not_lt.mpr hfull)

/-- One slot and two callers: the second is left asleep by its registration and its second look,
and no release is under way. -/
theorem second_sleeps_beside_a_full_entry :
    let shared := Shared.new Config.default none fun span _ => span
    let moves := [.arrive "a".toList, .arrive "a".toList] ++ approach 0 0 ++ approach 1 0 ++
      [.caller 1 .enable, .caller 1 (.retry 0)]
    let w := (new shared.config 0).run shared moves
    (∃ task ∈ w.tasks, task.point = .parked 0 false) ∧
      ¬ ∃ task ∈ w.tasks, task.point = .parked 0 false ∧
        (w.origins 0).inFlight < (w.origins 0).limit := by
  refine ⟨by decide, ?_⟩
  apply no_lost_wakeup Config.default none (fun span _ => span) 0
  unfold Releasing
  decide

end World

end Chromulate.Concurrency
