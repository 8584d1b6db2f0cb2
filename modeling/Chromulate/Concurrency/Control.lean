import Chromulate.Concurrency.Law

/-!
# What the law can do

Of the fourteen fields of an entry, five matter to anyone but the law itself: the limit, the
slots in flight, the ceiling with the instant it last moved, and the end of the pause. They are
the entry's *standing*, and this file says once how a completed request can move it
(`Taught`, `taught_apply`). The rest of the development reasons about the standing only.

`Standing.Lawful` is the joint invariant of the law: `min ≤ limit ≤ ceiling ≤ max`, no more slots
out than `max`, and a ceiling below `max` knows when it moved. It is kept by every critical
section (`lawful_take`, `lawful_release`).
-/

namespace Chromulate.Concurrency

/-- What an entry shows to the outside. -/
structure Standing where
  limit : Nat
  inFlight : Nat
  ceiling : Nat
  resumeAt : Option Instant
  ceilingSince : Option Instant

def Origin.standing (origin : Origin) : Standing :=
  ⟨origin.limit, origin.inFlight, origin.ceiling, origin.resumeAt, origin.ceilingSince⟩

namespace Standing

/-- `relax_ceiling`, on the standing. -/
def relax (shared : Shared) (now : Instant) (s : Standing) : Standing :=
  match shared.ceilingRecovery, s.ceilingSince with
  | some interval, some since =>
    if s.ceiling < shared.config.max ∧ deadline since interval ≤ now then
      { s with ceiling := s.ceiling + 1, ceilingSince := some now }
    else s
  | _, _ => s

/-- `refuse`, on the standing. -/
def refuse (config : Config) (now resumeAt : Instant) (s : Standing) : Standing :=
  { s with
    limit := Nat.min s.limit (Nat.min s.ceiling (Nat.max (s.limit / 2) config.min))
    ceiling := Nat.min s.ceiling (Nat.max (s.limit / 2) config.min)
    resumeAt := some resumeAt
    ceilingSince := some now }

end Standing

/-- A healthy response with this latency completes a probe, there is a baseline to hold it
against, and it is not slower than that allows. -/
def Origin.completesCleanProbe (shared : Shared) (latency : Duration) (origin : Origin) : Bool :=
  shared.config.probe ≤ origin.probeSamples + 1 &&
    origin.baseline.any fun baseline =>
      origin.probeMean latency ≤ Origin.threshold shared baseline

/-- How a signal can move the standing of an entry. -/
inductive Taught (shared : Shared) (now : Instant) (clean : Prop) (s : Standing) :
    Signal → Standing → Prop where
  | unmoved {signal : Signal} (h : ∀ retryAfter, signal ≠ .backpressure retryAfter) :
      Taught shared now clean s signal s
  /-- A degraded probe. -/
  | halved : Taught shared now clean s .healthy
      { s with limit := Nat.max (s.limit / 2) shared.config.min }
  /-- A clean probe that earns no slot. -/
  | relaxed (h : clean) : Taught shared now clean s .healthy (s.relax shared now)
  | increased (h : clean)
      (hroom : s.limit < Nat.min (s.relax shared now).ceiling shared.config.max) :
      Taught shared now clean s .healthy { s.relax shared now with limit := s.limit + 1 }
  | refused (retryAfter : Option Duration) (refusals : Nat) :
      Taught shared now clean s (.backpressure retryAfter) (s.refuse shared.config now
        (deadline now (Origin.pauseFor shared.config refusals retryAfter)))

variable {shared : Shared} {now : Instant} {latency : Duration} {origin : Origin}

theorem standing_relaxCeiling :
    (origin.relaxCeiling shared now).standing = origin.standing.relax shared now := by
  unfold Origin.relaxCeiling Standing.relax
  cases shared.ceilingRecovery with
  | none => rfl
  | some interval =>
    cases hsince : origin.ceilingSince with
    | none =>
      simp only [Origin.standing, hsince]
      split <;> simp [hsince]
    | some since =>
      by_cases hmax : shared.config.max ≤ origin.ceiling
      · simp [Origin.standing, hsince, hmax, Nat.not_lt.mpr hmax]
      · by_cases hnow : now < deadline since interval
        · simp [Origin.standing, hsince, hmax, hnow]
        · simp [Origin.standing, hsince, hmax, hnow, Nat.lt_of_not_le hmax, Int.not_lt.mp hnow]

theorem limit_relax {s : Standing} : (s.relax shared now).limit = s.limit := by
  unfold Standing.relax
  split
  · split <;> rfl
  · rfl

/-- Conditions 4 to 8 either add one slot below the ceiling or leave the standing alone. -/
theorem standing_credit (config : Config) :
    (origin.credit config now).standing = origin.standing ∨
      origin.standing.limit < Nat.min origin.standing.ceiling config.max ∧
        (origin.credit config now).standing =
          { origin.standing with limit := origin.standing.limit + 1 } := by
  unfold Origin.credit
  split
  · exact Or.inl rfl
  · dsimp only
    split
    · exact Or.inl rfl
    split
    · exact Or.inl rfl
    split
    · exact Or.inl rfl
    split
    · exact Or.inl rfl
    · rename_i hroom
      exact Or.inr ⟨Nat.lt_of_not_le hroom, rfl⟩

/-- **What a signal teaches.** -/
theorem taught_apply (signal : Signal) :
    Taught shared now (origin.completesCleanProbe shared latency) origin.standing signal
      (origin.apply shared now latency signal).standing := by
  cases signal with
  | neutral | refused | failed => exact .unmoved (by simp)
  | backpressure retryAfter => exact .refused retryAfter _
  | healthy =>
    show Taught _ _ _ _ _ (origin.healthy shared now latency).standing
    unfold Origin.healthy
    split
    · exact .unmoved (by simp)
    · rename_i hprobe
      cases hbaseline : origin.baseline with
      | none => exact .unmoved (by simp)
      | some baseline =>
        dsimp only
        unfold Origin.verdict
        split
        · exact .halved
        · rename_i hclean
          have hcompletes : origin.completesCleanProbe shared latency = true := by
            simp only [Origin.completesCleanProbe, hbaseline, Option.any_some,
              Bool.and_eq_true, decide_eq_true_eq]
            exact ⟨Nat.le_of_not_lt hprobe, Nat.le_of_not_lt hclean⟩
          -- What `relax_ceiling` sees differs from `origin` outside its standing only.
          rcases standing_credit shared.config with hcredit | ⟨hroom, hcredit⟩
          · rw [hcredit, standing_relaxCeiling]
            exact .relaxed hcompletes
          · rw [standing_relaxCeiling, limit_relax] at hroom hcredit
            rw [hcredit]
            exact .increased hcompletes hroom

/-! ## The invariant of the law -/

/-- `min ≤ limit ≤ ceiling ≤ max`, and what goes with it. -/
structure Standing.Lawful (config : Config) (s : Standing) : Prop where
  min_le : config.min ≤ s.limit
  le_ceiling : s.limit ≤ s.ceiling
  le_max : s.ceiling ≤ config.max
  inFlight_le : s.inFlight ≤ config.max
  since : s.ceiling < config.max → s.ceilingSince.isSome

variable {config : Config} {waited : Bool}

theorem lawful_new (h : config.min ≤ config.max) : (Origin.new config).standing.Lawful config where
  min_le := Nat.le_refl _
  le_ceiling := h
  le_max := Nat.le_refl _
  inFlight_le := Nat.zero_le _
  since hlt := absurd hlt (Nat.lt_irrefl _)

theorem relax_cases (shared : Shared) (now : Instant) (s : Standing) :
    s.relax shared now = s ∨
      s.ceiling < shared.config.max ∧
      (∃ interval since, shared.ceilingRecovery = some interval ∧ s.ceilingSince = some since ∧
        deadline since interval ≤ now) ∧
      s.relax shared now = { s with ceiling := s.ceiling + 1, ceilingSince := some now } := by
  unfold Standing.relax
  split
  · rename_i interval since hrecovery hsince
    split
    · rename_i h
      exact Or.inr ⟨h.1, ⟨interval, since, hrecovery, hsince, h.2⟩, rfl⟩
    · exact Or.inl rfl
  · exact Or.inl rfl

variable {s s' : Standing} {signal : Signal} {clean : Prop}

theorem Standing.Lawful.relax (h : s.Lawful shared.config) (now : Instant) :
    (s.relax shared now).Lawful shared.config := by
  rcases relax_cases shared now s with heq | ⟨hlt, -, heq⟩
  · rwa [heq]
  · rw [heq]
    exact ⟨h.min_le, Nat.le_succ_of_le h.le_ceiling, hlt, h.inFlight_le, fun _ => rfl⟩

theorem Standing.Lawful.refuse (h : s.Lawful config) (now resumeAt : Instant) :
    (s.refuse config now resumeAt).Lawful config := by
  have hmin := h.min_le
  have hceiling := h.le_ceiling
  have hmax := h.le_max
  refine ⟨?_, Nat.min_le_right _ _, ?_, h.inFlight_le, fun _ => rfl⟩
  · simp only [Standing.refuse, Nat.min_def, Nat.max_def]
    split_ifs <;> omega
  · exact Nat.le_trans (Nat.min_le_left _ _) hmax

/-- **The law keeps its bounds.** -/
theorem Taught.lawful (ht : Taught shared now clean s signal s') (h : s.Lawful shared.config) :
    s'.Lawful shared.config := by
  cases ht with
  | unmoved _ => exact h
  | halved =>
    have hmin := h.min_le
    refine ⟨Nat.le_max_right _ _, ?_, h.le_max, h.inFlight_le, h.since⟩
    exact Nat.le_trans (Nat.max_le.mpr ⟨Nat.div_le_self _ _, hmin⟩) h.le_ceiling
  | relaxed _ => exact h.relax now
  | increased _ hroom =>
    have hrelaxed := h.relax now
    refine ⟨Nat.le_succ_of_le h.min_le, ?_, hrelaxed.le_max, hrelaxed.inFlight_le,
      hrelaxed.since⟩
    exact Nat.lt_of_lt_of_le hroom (Nat.min_le_left _ _)
  | refused _ _ => exact h.refuse now _

theorem inFlight_relax : (s.relax shared now).inFlight = s.inFlight := by
  rcases relax_cases shared now s with heq | ⟨-, -, heq⟩ <;> rw [heq]

theorem resumeAt_relax : (s.relax shared now).resumeAt = s.resumeAt := by
  rcases relax_cases shared now s with heq | ⟨-, -, heq⟩ <;> rw [heq]

theorem Taught.inFlight (ht : Taught shared now clean s signal s') :
    s'.inFlight = s.inFlight := by
  cases ht with
  | unmoved _ => rfl
  | halved => rfl
  | relaxed _ => exact inFlight_relax
  | increased _ _ => exact inFlight_relax
  | refused _ _ => rfl

/-- Only a `429` or a `503` sets a pause. -/
theorem Taught.resumeAt (ht : Taught shared now clean s signal s')
    (h : ∀ retryAfter, signal ≠ .backpressure retryAfter) : s'.resumeAt = s.resumeAt := by
  cases ht with
  | unmoved _ => rfl
  | halved => rfl
  | relaxed _ => exact resumeAt_relax
  | increased _ _ => exact resumeAt_relax
  | refused retryAfter _ => exact absurd rfl (h retryAfter)

/-! ## The two critical sections -/

theorem tryTakeSlot_eq_some {taken : Origin} :
    origin.tryTakeSlot waited = some taken ↔
      origin.inFlight < origin.limit ∧
        { origin with
          inFlight := origin.inFlight + 1
          saturated := waited || origin.saturated } = taken := by
  unfold Origin.tryTakeSlot
  split_ifs with h <;> simp [h]

theorem tryTakeSlot_eq_none :
    origin.tryTakeSlot waited = none ↔ origin.limit ≤ origin.inFlight := by
  unfold Origin.tryTakeSlot
  split_ifs with h <;> simp <;> omega

theorem lawful_take {taken : Origin} (htake : origin.tryTakeSlot waited = some taken)
    (h : origin.standing.Lawful config) : taken.standing.Lawful config := by
  obtain ⟨hfree, rfl⟩ := tryTakeSlot_eq_some.mp htake
  refine ⟨h.min_le, h.le_ceiling, h.le_max, ?_, h.since⟩
  exact Nat.le_trans (Nat.le_trans hfree h.le_ceiling) h.le_max

theorem taught_release (signal : Signal) :
    Taught shared now (origin.completesCleanProbe shared latency)
      { origin.standing with inFlight := origin.inFlight - 1 } signal
      (origin.release shared now latency (some signal)).standing :=
  @taught_apply shared now latency { origin with inFlight := origin.inFlight - 1 } signal

theorem inFlight_release (signal : Option Signal) :
    (origin.release shared now latency signal).inFlight = origin.inFlight - 1 := by
  cases signal with
  | none => rfl
  | some signal => exact (taught_release signal).inFlight

theorem lawful_release (signal : Option Signal) (h : origin.standing.Lawful shared.config) :
    (origin.release shared now latency signal).standing.Lawful shared.config := by
  have hreturned : Standing.Lawful shared.config
      { origin.standing with inFlight := origin.inFlight - 1 } :=
    ⟨h.min_le, h.le_ceiling, h.le_max, Nat.le_trans (Nat.sub_le _ _) h.inFlight_le, h.since⟩
  cases signal with
  | none => exact hreturned
  | some signal => exact (taught_release signal).lawful hreturned

end Chromulate.Concurrency
