import Chromulate.Concurrency.Ratchet

/-!
# A burst of refusals

Requests that were sent side by side are refused one after the other. The decrease rule speaks of
half the limit that earned a refusal; the code halves the limit it finds when the refusal is
reported. So `k` refusals of one burst divide the limit by `2 ^ k` (`run_burst`), and only the first
of them costs what the rule says, unless that is already the minimum (**`burst_costs_half_iff`**).
-/

namespace Chromulate.Concurrency

/-- One permit that comes back with a `429` or a `503`. -/
structure Refusal where
  now : Instant
  latency : Duration
  retryAfter : Option Duration

def Refusal.event (refusal : Refusal) : Event :=
  .complete refusal.now refusal.latency (.backpressure refusal.retryAfter)

namespace Entry

variable {shared : Shared} {entry : Entry}

/-- The limit and the ceiling are both at `level`. -/
def At (level : Nat) (entry : Entry) : Prop :=
  entry.origin.limit = level ∧ entry.origin.ceiling = level

/-- **One refusal takes limit and ceiling to half the limit it finds.** -/
theorem step_refusal (h : entry.Sound shared) (hpermit : 0 < entry.permits) (refusal : Refusal) :
    (entry.step shared refusal.event).At (max (entry.origin.limit / 2) shared.config.min) := by
  have hmin : shared.config.min ≤ entry.origin.limit := h.lawful.min_le
  have hceiling : entry.origin.limit ≤ entry.origin.ceiling := h.lawful.le_ceiling
  have hhalf : max (entry.origin.limit / 2) shared.config.min ≤ entry.origin.limit :=
    Nat.max_le.mpr ⟨Nat.div_le_self _ _, hmin⟩
  have hne : entry.permits ≠ 0 := Nat.ne_of_gt hpermit
  have hlearned : min entry.origin.ceiling (max (entry.origin.limit / 2) shared.config.min) =
      max (entry.origin.limit / 2) shared.config.min :=
    Nat.min_eq_right (Nat.le_trans hhalf hceiling)
  simp only [Refusal.event, step, hne, if_false]
  constructor
  · show min entry.origin.limit
      (min entry.origin.ceiling (max (entry.origin.limit / 2) shared.config.min)) = _
    rw [hlearned]
    exact Nat.min_eq_right hhalf
  · exact hlearned

theorem permits_step_refusal (refusal : Refusal) :
    (entry.step shared refusal.event).permits = entry.permits - 1 := by
  simp only [Refusal.event, step]
  split
  · rename_i hzero
    rw [hzero]
  · rfl

theorem max_halved (limit least k : Nat) :
    max (max (limit / 2) least / 2 ^ k) least = max (limit / 2 ^ (k + 1)) least := by
  have hpow : limit / 2 / 2 ^ k = limit / 2 ^ (k + 1) := by
    rw [Nat.div_div_eq_div_mul, Nat.pow_succ, Nat.mul_comm]
  have hleast : least / 2 ^ k ≤ least := Nat.div_le_self _ _
  rcases Nat.le_total (limit / 2) least with hle | hle
  · have hsmall : limit / 2 ^ (k + 1) ≤ least := by
      rw [← hpow]
      exact Nat.le_trans (Nat.div_le_self _ _) hle
    rw [Nat.max_eq_right hle, Nat.max_eq_right hleast, Nat.max_eq_right hsmall]
  · rw [Nat.max_eq_left hle, hpow]

/-- **A burst divides the limit once for each of its refusals.** -/
theorem run_burst {burst : List Refusal} (h : entry.Sound shared) (hne : burst ≠ [])
    (hpermits : burst.length ≤ entry.permits) :
    (entry.run shared (burst.map Refusal.event)).At
      (max (entry.origin.limit / 2 ^ burst.length) shared.config.min) := by
  induction burst generalizing entry with
  | nil => exact absurd rfl hne
  | cons refusal burst ih =>
    rw [List.length_cons] at hpermits
    have hstep := step_refusal h (by omega) refusal
    cases burst with
    | nil => simpa [run] using hstep
    | cons next rest =>
      have hleft : (next :: rest).length ≤ (entry.step shared refusal.event).permits := by
        rw [permits_step_refusal]
        omega
      have hrest := ih (h.step refusal.event) (List.cons_ne_nil _ _) hleft
      rw [hstep.1, max_halved] at hrest
      exact hrest

/-- **When a burst costs what the rule says.** In every state that an entry reaches, `k`
outstanding permits that are refused one after the other leave the half of the limit only if there
is one of them, or if the half is not above the minimum. -/
theorem burst_costs_half_iff (config : Config) (ceilingRecovery : Option Duration)
    (scale : Duration → F64 → Duration) (events : List Event) (burst : List Refusal)
    (hne : burst ≠ []) :
    let shared := Shared.new config ceilingRecovery scale
    let reached := (Entry.new shared.config).run shared events
    burst.length ≤ reached.permits →
    ((reached.run shared (burst.map Refusal.event)).At
        (max shared.config.min (reached.origin.limit / 2)) ↔
      burst.length = 1 ∨ reached.origin.limit / 2 ≤ shared.config.min) := by
  intro shared reached hpermits
  have hsound : reached.Sound shared := (sound_new config.sanitised_min_le_max).run events
  have hburst := run_burst hsound hne hpermits
  have hlength : burst.length ≠ 0 := by simpa using hne
  have hlevel : (reached.run shared (burst.map Refusal.event)).At
        (max shared.config.min (reached.origin.limit / 2)) ↔
      max (reached.origin.limit / 2 ^ burst.length) shared.config.min =
        max shared.config.min (reached.origin.limit / 2) := by
    constructor
    · intro hat
      exact hburst.1.symm.trans hat.1
    · intro heq
      rwa [heq] at hburst
  rw [hlevel]
  generalize shared.config.min = least
  generalize reached.origin.limit = limit
  generalize burst.length = k at hlength ⊢
  constructor
  · intro heq
    by_cases hone : k = 1
    · exact Or.inl hone
    · -- the second refusal has already halved again
      have hquarter : limit / 2 ^ k ≤ limit / 2 / 2 := by
        have hpow : 2 ^ 2 ≤ 2 ^ k := Nat.pow_le_pow_right (by decide) (by omega)
        rw [Nat.div_div_eq_div_mul]
        exact Nat.div_le_div_left hpow (by decide)
      omega
  · intro hcase
    rcases hcase with rfl | hle
    · rw [Nat.pow_one, Nat.max_comm]
    · have hsmall : limit / 2 ^ k ≤ limit / 2 := by
        have hpow : 2 ^ 1 ≤ 2 ^ k := Nat.pow_le_pow_right (by decide) (by omega)
        exact Nat.div_le_div_left hpow (by decide)
      omega

/-- One of two requests that find the entry full, and gets the slot of the request that ends. -/
def queuedExchange : List Event :=
  [.take false, .take false, .complete 0 (Duration.fromMillis 100) .healthy, .take true]

/-- Sixty-five healthy responses, with a queue throughout. -/
def climb : List Event := (List.replicate 65 queuedExchange).flatten

/-- The permits still out are dropped, and four are granted anew. -/
def fourGranted : List Event :=
  climb ++ List.replicate 4 (.drop 0 0) ++ List.replicate 4 (.take false)

def refusedAtOnce (k : Nat) : List Refusal := List.replicate k ⟨0, 0, none⟩

/-- Four permits are granted while the limit is four; one of them is refused, and the limit is
two. -/
theorem single_refusal_costs_half :
    let shared := Shared.new .default none fun span _ => 2 * span
    let granted := (Entry.new shared.config).run shared fourGranted
    granted.origin.limit = 4 ∧ (granted.run shared ((refusedAtOnce 1).map Refusal.event)).At 2 := by
  have hburst := burst_costs_half_iff .default none (fun span _ => 2 * span) fourGranted
    (refusedAtOnce 1) (by decide)
  have hgranted :
      let shared := Shared.new .default none fun span _ => 2 * span
      let granted := (Entry.new shared.config).run shared fourGranted
      granted.origin.limit = 4 ∧ (refusedAtOnce 1).length ≤ granted.permits := by
    decide +kernel
  -- the climb is not to be gone through again
  revert hburst hgranted
  dsimp only
  generalize (Entry.new _).run _ fourGranted = granted
  rintro hburst ⟨hlimit, hpermits⟩
  have hhalf := (hburst hpermits).mpr (Or.inl rfl)
  rw [hlimit] at hhalf
  exact ⟨hlimit, hhalf⟩

/-- With the default configuration: four permits are granted while the limit is four, and when all
four are refused the limit is one and not two. -/
theorem burst_costs_more :
    let shared := Shared.new .default none fun span _ => 2 * span
    let before := (Entry.new shared.config).run shared (climb ++ List.replicate 4 (.drop 0 0))
    let granted := (Entry.new shared.config).run shared fourGranted
    before.origin.limit = 4 ∧ before.permits = 0 ∧
      granted.origin.limit = 4 ∧ granted.permits = 4 ∧
      (granted.run shared ((refusedAtOnce 4).map Refusal.event)).origin.limit = 1 ∧
      (granted.run shared ((refusedAtOnce 4).map Refusal.event)).origin.ceiling = 1 ∧
      max shared.config.min (granted.origin.limit / 2) = 2 := by
  decide +kernel

end Entry

end Chromulate.Concurrency
