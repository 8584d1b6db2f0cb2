import Chromulate.Concurrency.Entries

/-!
# The pause

An entry says of `resume_at`: *no permit is granted before this*. `acquire_authority` looks at it
once, before it pays and queues, and a `429` that arrives while a caller is queueing sets a pause
that this caller never sees. Worse, the release that sets it also frees the slot and wakes the
queue (**`woken_into_the_pause`**).

**Theorem (`pause_honoured`).** In every run in which no pause is set on an entry while a caller
stands between its look at the pause and its slot, every grant is at or after the `resume_at` in
force. The invariant is `PausesOver`: whoever is past the look is past the pause.
-/

namespace Chromulate.Concurrency

namespace World

variable {shared : Shared} {w : World} {x : Nat} {move : Move}

/-- The present is not before the end of the pause. -/
def pauseOver (w : World) (x : Nat) : Prop :=
  ∀ resumeAt, (w.origins x).resumeAt = some resumeAt → resumeAt ≤ w.now

/-- The move lets a caller have a slot of the entry. -/
def grants (shared : Shared) (w : World) (move : Move) (x : Nat) : Prop :=
  w.heldBy x < (w.step shared move).heldBy x

instance (shared : Shared) (w : World) (move : Move) (x : Nat) :
    Decidable (w.grants shared move x) := inferInstanceAs (Decidable (_ < _))

/-- A refusal that sets a pause into the future finds nobody between the look and the slot. -/
def undisturbed (shared : Shared) (w : World) : Move → Bool
  | .caller i (.complete reading (.backpressure retryAfter)) =>
    match w.tasks[i]? with
    | some ⟨_, .holding x _⟩ =>
      ((w.origins x).refuse shared.config reading retryAfter).resumeAt.all (· ≤ w.now) ||
        w.tasks.all fun task => task.point.pastPause ≠ some x
    | _ => true
  | _ => true

/-- Every move of the run is undisturbed. -/
def runUndisturbed (shared : Shared) : World → List Move → Bool
  | _, [] => true
  | w, move :: moves =>
    w.undisturbed shared move && runUndisturbed shared (w.step shared move) moves

/-- Whoever is past the look is past the pause. -/
def PausesOver (w : World) : Prop :=
  ∀ task ∈ w.tasks, ∀ x, task.point.pastPause = some x → w.pauseOver x

theorem pastPause_notify (point : Point) (x : Nat) :
    (point.notify x).pastPause = point.pastPause := by
  cases point <;> rfl

theorem Shift.pastPause {p q : Point} (h : Shift p q) (x : Nat) (hx : q.pastPause = some x) :
    p.pastPause = some x := by
  cases h with
  | paid => exact hx
  | enabled => exact hx
  | woken => exact hx
  | cancelled _ => cases hx

/-- A caller that does not come past a look it was not past before. -/
theorem PausesOver.put {i : Nat} {task : Task} {p : Point} (h : w.PausesOver)
    (htask : w.tasks[i]? = some task)
    (hpoint : ∀ x, p.pastPause = some x → task.point.pastPause = some x ∨ w.pauseOver x) :
    (w.put i task p).PausesOver := by
  intro t ht x hx
  rcases mem_tasks_put ht with ht | rfl
  · exact h t ht x hx
  · rcases hpoint x hx with hx | hx
    · exact h task (List.mem_of_getElem? htask) x hx
    · exact hx

theorem pauseOver_of_pauseRemaining {reading : Instant} (hreading : reading ≤ w.now)
    (hpause : (w.origins x).pauseRemaining reading = 0) : w.pauseOver x := by
  intro resumeAt hresume
  simp only [Origin.pauseRemaining, hresume, Instant.saturatingDurationSince] at hpause
  have hle : (resumeAt : Int) - reading ≤ 0 := Int.toNat_eq_zero.mp hpause
  exact Int.le_trans (Int.le_of_sub_nonpos hle) hreading

theorem PausesOver.write {y : Nat} {origin : Origin} (h : w.PausesOver)
    (horigin : origin.resumeAt = (w.origins y).resumeAt ∨
      (∀ resumeAt, origin.resumeAt = some resumeAt → resumeAt ≤ w.now) ∨
      ∀ task ∈ w.tasks, task.point.pastPause ≠ some y) :
    (w.write y origin).PausesOver := by
  intro t ht x hx resumeAt hresume
  have hresume : (Function.update w.origins y origin x).resumeAt = some resumeAt := hresume
  by_cases hxy : x = y
  · subst hxy
    rw [Function.update_self] at hresume
    rcases horigin with heq | hover | hnobody
    · exact h t ht x hx resumeAt (heq ▸ hresume)
    · exact hover resumeAt hresume
    · exact absurd hx (hnobody t ht)
  · rw [Function.update_of_ne hxy] at hresume
    exact h t ht x hx resumeAt hresume

theorem resumeAt_release_of_ne {origin : Origin} {now : Instant} {latency : Duration}
    {signal : Option Signal} (h : ∀ retryAfter, signal ≠ some (.backpressure retryAfter)) :
    (origin.release shared now latency signal).resumeAt = origin.resumeAt := by
  cases signal with
  | none => rfl
  | some signal =>
    exact (taught_release signal).resumeAt fun retryAfter heq => h retryAfter (heq ▸ rfl)

theorem resumeAt_release_backpressure (origin : Origin) (now : Instant) (latency : Duration)
    (retryAfter : Option Duration) :
    (origin.release shared now latency (some (.backpressure retryAfter))).resumeAt =
      (origin.refuse shared.config now retryAfter).resumeAt := rfl

/-- **One undisturbed move keeps everyone past the pause.** -/
theorem PausesOver.step (h : w.PausesOver) (hknown : w.Known shared.config)
    (hquiet : w.undisturbed shared move) : (w.step shared move).PausesOver := by
  have hs := stepped shared w move
  generalize w.step shared move = w' at hs
  cases hs with
  | still _ => exact h
  | arrived authority =>
    intro t ht x hx
    rcases List.mem_append.mp ht with ht | ht
    · exact h t ht x hx
    · rw [List.mem_singleton.mp ht] at hx
      cases hx
  | found htask _ _ lastUseSeq seq =>
    have hw : PausesOver { w with lastUseSeq := lastUseSeq, seq := seq } := h
    exact hw.put htask fun x hx => by cases hx
  | @made i task locked inserted htask _ _ hinserted =>
    subst hinserted
    refine PausesOver.put (w := { World.insertNew shared _ task.authority w.seq with
      store := Eviction.removeAll _ _ }) ?_ htask fun x hx => by cases hx
    intro t ht x hx
    have hwas := h t ht x hx
    intro resumeAt hresume
    have hresume : (Function.update w.origins w.made (Origin.new shared.config) x).resumeAt =
      some resumeAt := hresume
    rw [hknown.update_made] at hresume
    exact hwas resumeAt hresume
  | passed htask _ hreading hpause =>
    refine h.put htask fun x hx => Or.inr ?_
    cases hx
    exact pauseOver_of_pauseRemaining hreading hpause
  | shifted htask _ hshift => exact h.put htask fun x hx => Or.inl (hshift.pastPause x hx)
  | took started htask _ htake =>
    refine (h.write (Or.inl ?_)).put htask fun x hx => by cases hx
    obtain ⟨-, rfl⟩ := tryTakeSlot_eq_some.mp htake
    rfl
  | queued htask hpoint => exact h.put htask fun x hx => Or.inl (by rw [hpoint]; exact hx)
  | slept htask hpoint _ => exact h.put htask fun x hx => Or.inl (by rw [hpoint]; exact hx)
  | @completed i task y started reading signal htask hpoint =>
    refine (h.write ?_).put htask fun x hx => by cases hx
    by_cases hback : ∃ retryAfter, signal = .backpressure retryAfter
    · obtain ⟨retryAfter, rfl⟩ := hback
      obtain ⟨authority, point⟩ := task
      cases hpoint
      right
      simp only [undisturbed, htask, Bool.or_eq_true, List.all_eq_true, decide_eq_true_eq,
        Option.all_eq_true] at hquiet
      rw [resumeAt_release_backpressure]
      exact hquiet
    · refine Or.inl (resumeAt_release_of_ne fun retryAfter heq => hback ⟨retryAfter, ?_⟩)
      exact Option.some.inj heq
  | dropped htask _ =>
    refine (h.write (Or.inl ?_)).put htask fun x hx => by cases hx
    exact resumeAt_release_of_ne fun retryAfter heq => by cases heq
  | notified htask _ =>
    have hput := h.put (p := .gone) htask fun x hx => by cases hx
    intro t ht x hx
    obtain ⟨t', ht', rfl⟩ := mem_notifyWaiters ht
    exact hput t' ht' x (by rwa [pastPause_notify] at hx)
  | forgot authority => exact h
  | advanced span =>
    intro t ht x hx resumeAt hresume
    exact Int.le_trans (h t ht x hx resumeAt hresume)
      (Int.le_add_of_nonneg_right (Int.natCast_nonneg span))

theorem PausesOver.run {moves : List Move} (h : w.PausesOver) (hknown : w.Known shared.config)
    (hquiet : runUndisturbed shared w moves) : (w.run shared moves).PausesOver := by
  induction moves generalizing w with
  | nil => exact h
  | cons move moves ih =>
    rw [runUndisturbed, Bool.and_eq_true] at hquiet
    exact ih (h.step hknown hquiet.1) (hknown.step move) hquiet.2

theorem exists_pastPause_of_grants (h : w.grants shared move x) :
    ∃ task ∈ w.tasks, task.point.pastPause = some x := by
  have hs := stepped shared w move
  unfold grants at h
  generalize w.step shared move = w' at hs h
  have hsame : ∀ {i : Nat} {task : Task} {p : Point}, w.tasks[i]? = some task →
      p.holds = none → (w.put i task p).heldBy x ≤ w.heldBy x := by
    intro i task p htask hp
    rw [heldBy_put htask, hp]
    exact Nat.sub_le _ _
  cases hs with
  | still _ => exact absurd h (Nat.lt_irrefl _)
  | arrived authority =>
    have heq : World.heldBy { w with tasks := w.tasks ++ [⟨authority, .looking⟩] } x =
        w.heldBy x := by
      unfold heldBy
      rw [List.countP_append]
      rfl
    exact absurd h (Nat.not_lt.mpr (Nat.le_of_eq heq))
  | @found _ _ entry _ htask _ _ _ _ =>
    exact absurd h (Nat.not_lt.mpr (hsame (p := .pausing entry) htask rfl))
  | made htask _ _ hinserted =>
    subst hinserted
    exact absurd h (Nat.not_lt.mpr (hsame (p := .pausing w.made) htask rfl))
  | passed htask _ _ _ | queued htask _ | slept htask _ _ =>
    exact absurd h (Nat.not_lt.mpr (hsame htask rfl))
  | shifted htask hholds hshift =>
    exact absurd h (Nat.not_lt.mpr (hsame htask ((hshift.holds hholds).trans hholds)))
  | @took i task _ y waited taken started htask hpoint _ =>
    have hxy : x = y := by
      by_contra hne
      have hle : ((w.write y taken).put i task (.holding y started)).heldBy x ≤ w.heldBy x := by
        rw [heldBy_put (w := w.write y taken) htask]
        simp only [Point.holds, Option.some.injEq, Ne.symm hne, if_false]
        exact Nat.sub_le _ _
      exact absurd h (Nat.not_lt.mpr hle)
    refine ⟨task, List.mem_of_getElem? htask, ?_⟩
    rcases hpoint with hpoint | ⟨n, hpoint⟩ <;> rw [hpoint, hxy] <;> rfl
  | @completed _ _ y _ _ _ htask _ | @dropped _ _ y _ _ htask _ =>
    exact absurd h (Nat.not_lt.mpr (hsame (p := .releasing y) htask rfl))
  | notified htask _ =>
    rw [heldBy_notifyWaiters] at h
    exact absurd h (Nat.not_lt.mpr (hsame htask rfl))
  | forgot authority => exact absurd h (Nat.lt_irrefl _)
  | advanced span => exact absurd h (Nat.lt_irrefl _)

/-- **The pause is honoured**: in every undisturbed run, no slot is granted before the `resume_at`
in force. -/
theorem pause_honoured (config : Config) (ceilingRecovery : Option Duration)
    (scale : Duration → F64 → Duration) (start : Instant) (moves : List Move) :
    let shared := Shared.new config ceilingRecovery scale
    let w := (new shared.config start).run shared moves
    runUndisturbed shared (new shared.config start) moves →
    ∀ move x, w.grants shared move x →
      ∀ resumeAt, (w.origins x).resumeAt = some resumeAt → ¬ w.now < resumeAt := by
  intro shared w hquiet move x hgrants resumeAt hresume
  have hover : w.PausesOver :=
    PausesOver.run (fun t ht => by cases ht) (known_new _ _) hquiet
  obtain ⟨task, htask, hpast⟩ := exists_pastPause_of_grants hgrants
  exact Int.not_lt.mpr (hover task htask x hpast resumeAt hresume)

/-- The moves of a caller from its lookup to its first check. -/
def approach (i : Nat) (now : Instant) : List Move :=
  [.caller i (.lookup []), .caller i (.checkPause now), .caller i .pay, .caller i (.attempt now)]

/-- One at a time: the second caller comes when the first was told to wait a minute, and has its
slot a minute later. -/
theorem second_waits_a_minute :
    let shared := Shared.new Config.default none fun span _ => span
    let minute := Duration.fromSecs 60
    let moves := [.arrive "a".toList] ++ approach 0 0 ++
      [.caller 0 (.complete 0 (.backpressure (some minute))), .caller 0 .notify,
        .arrive "a".toList, .caller 1 (.lookup []), .caller 1 (.checkPause 0), .advance minute,
        .caller 1 (.checkPause minute), .caller 1 .pay]
    let w := (new shared.config 0).run shared moves
    w.grants shared (.caller 1 (.attempt minute)) 0 ∧
      (w.origins 0).resumeAt = some (minute : Instant) ∧ ¬ w.now < (minute : Instant) := by
  intro shared minute moves w
  have hquiet : runUndisturbed shared (new shared.config 0) moves := by decide
  have hgrants : w.grants shared (.caller 1 (.attempt minute)) 0 := by decide
  have hhonoured := pause_honoured Config.default none (fun span _ => span) 0 moves hquiet
  exact ⟨hgrants, by decide,
    hhonoured (.caller 1 (.attempt minute)) 0 hgrants minute (by decide)⟩

/-- With one slot: the second caller queues while the first has it, and the answer that asks for a
minute's pause hands the slot to the second at once. -/
theorem woken_into_the_pause :
    let shared := Shared.new Config.default none fun span _ => span
    let minute := Duration.fromSecs 60
    let moves := [.arrive "a".toList, .arrive "a".toList] ++ approach 0 0 ++ approach 1 0 ++
      [.caller 1 .enable, .caller 1 (.retry 0),
        .caller 0 (.complete 0 (.backpressure (some minute))), .caller 0 .notify,
        .caller 1 .wake]
    let w := (new shared.config 0).run shared moves
    w.grants shared (.caller 1 (.attempt 0)) 0 ∧
      (w.origins 0).resumeAt = some (minute : Instant) ∧ w.now < (minute : Instant) := by
  decide

end World

end Chromulate.Concurrency
