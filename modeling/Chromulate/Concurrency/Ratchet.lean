import Chromulate.Concurrency.Control

/-!
# One entry over its life

An entry is driven by the callers that take its slots and give them back, in any order and with
any signals, latencies and clock readings. `Entry` is the entry with the number of its permits
outstanding, and a run is a list of events.

**Theorem (`control_law`).** In every run the limit stays between its bounds, `in_flight` is the
number of permits out, and a slot is granted only below the limit. Without recovery the ceiling
never rises, and a refusal at limit `L` holds every later limit to `max(min, L/2)`. With recovery
the ceiling rises by one at a time, on clean probes only.

Two rises are the interval apart as long as the clock readings are `timely`: `deadline` falls back
to the instant it started from when the interval does not fit, which makes the longest intervals
the shortest (**`longest_interval_recovers_at_once`**), and a refusal that was timed before the
last rise and processed after it turns `ceiling_since` back.
-/

namespace Chromulate.Concurrency

/-- What happens to an entry. -/
inductive Event where
  | take (waited : Bool)
  | complete (now : Instant) (latency : Duration) (signal : Signal)
  | drop (now : Instant) (latency : Duration)
  deriving DecidableEq

/-- An entry and how many of its permits are out. -/
structure Entry where
  origin : Origin
  permits : Nat
  deriving DecidableEq

namespace Entry

def new (config : Config) : Entry := ⟨Origin.new config, 0⟩

/-- A permit is returned once, by `complete` or by `drop`; without one out there is none to
return. -/
def step (shared : Shared) (entry : Entry) : Event → Entry
  | .take waited =>
    match entry.origin.tryTakeSlot waited with
    | some origin => ⟨origin, entry.permits + 1⟩
    | none => entry
  | .complete now latency signal =>
    if entry.permits = 0 then entry
    else ⟨entry.origin.release shared now latency (some signal), entry.permits - 1⟩
  | .drop now latency =>
    if entry.permits = 0 then entry
    else ⟨entry.origin.release shared now latency none, entry.permits - 1⟩

def run (shared : Shared) (entry : Entry) (events : List Event) : Entry :=
  events.foldl (step shared) entry

variable {shared : Shared} {entry : Entry}

theorem run_append (entry : Entry) (front back : List Event) :
    entry.run shared (front ++ back) = (entry.run shared front).run shared back :=
  List.foldl_append

/-- **What one event does**, guards included. -/
theorem step_cases (shared : Shared) (entry : Entry) (event : Event) :
    entry.step shared event = entry ∨
    (∃ waited taken, event = .take waited ∧ entry.origin.tryTakeSlot waited = some taken ∧
      entry.step shared event = ⟨taken, entry.permits + 1⟩) ∨
    (∃ now latency signal, event = .complete now latency signal ∧ entry.permits ≠ 0 ∧
      entry.step shared event =
        ⟨entry.origin.release shared now latency (some signal), entry.permits - 1⟩) ∨
    (∃ now latency, event = .drop now latency ∧ entry.permits ≠ 0 ∧
      entry.step shared event =
        ⟨entry.origin.release shared now latency none, entry.permits - 1⟩) := by
  cases event with
  | take waited =>
    cases htake : entry.origin.tryTakeSlot waited with
    | none => exact Or.inl (by simp [step, htake])
    | some taken =>
      exact Or.inr (Or.inl ⟨waited, taken, rfl, htake, by simp [step, htake]⟩)
  | complete now latency signal =>
    by_cases hnone : entry.permits = 0
    · exact Or.inl (by simp [step, hnone])
    · refine Or.inr (Or.inr (Or.inl ⟨now, latency, signal, rfl, hnone, ?_⟩))
      simp [step, hnone]
  | drop now latency =>
    by_cases hnone : entry.permits = 0
    · exact Or.inl (by simp [step, hnone])
    · refine Or.inr (Or.inr (Or.inr ⟨now, latency, rfl, hnone, ?_⟩))
      simp [step, hnone]

/-! ## Bounds and books -/

/-- The law's bounds, and the slots in flight as the permits out. -/
structure Sound (shared : Shared) (entry : Entry) : Prop where
  lawful : entry.origin.standing.Lawful shared.config
  permits : entry.origin.inFlight = entry.permits

theorem Sound.step (h : entry.Sound shared) (event : Event) :
    (entry.step shared event).Sound shared := by
  have hpermits := h.permits
  rcases step_cases shared entry event with heq | ⟨waited, taken, -, htake, heq⟩ |
    ⟨now, latency, signal, -, -, heq⟩ | ⟨now, latency, -, -, heq⟩
  · rwa [heq]
  · rw [heq]
    refine ⟨lawful_take htake h.lawful, ?_⟩
    obtain ⟨-, rfl⟩ := tryTakeSlot_eq_some.mp htake
    exact congrArg (· + 1) hpermits
  · rw [heq]
    exact ⟨lawful_release _ h.lawful, (inFlight_release _).trans (congrArg (· - 1) hpermits)⟩
  · rw [heq]
    exact ⟨lawful_release _ h.lawful, (inFlight_release _).trans (congrArg (· - 1) hpermits)⟩

theorem Sound.run (h : entry.Sound shared) (events : List Event) :
    (entry.run shared events).Sound shared := by
  apply List.foldlRecOn
  · exact h
  · exact fun entry h event _ => h.step event

theorem sound_new (hconfig : shared.config.min ≤ shared.config.max) :
    (new shared.config).Sound shared :=
  ⟨lawful_new hconfig, rfl⟩

theorem lt_limit_of_grant {event : Event}
    (h : entry.permits < (entry.step shared event).permits) :
    entry.origin.inFlight < entry.origin.limit := by
  rcases step_cases shared entry event with heq | ⟨waited, taken, -, htake, heq⟩ |
    ⟨now, latency, signal, -, -, heq⟩ | ⟨now, latency, -, -, heq⟩
  · rw [heq] at h
    exact absurd h (Nat.lt_irrefl _)
  · exact (tryTakeSlot_eq_some.mp htake).1
  · rw [heq] at h
    exact absurd h (Nat.not_lt.mpr (Nat.sub_le _ _))
  · rw [heq] at h
    exact absurd h (Nat.not_lt.mpr (Nat.sub_le _ _))

/-! ## The ceiling -/

theorem step_ceiling_cases (shared : Shared) (entry : Entry) (event : Event) :
    ((entry.step shared event).origin.ceiling = entry.origin.ceiling ∧
      (entry.step shared event).origin.ceilingSince = entry.origin.ceilingSince) ∨
    ∃ now latency signal, event = .complete now latency signal ∧
      Taught shared now (entry.origin.completesCleanProbe shared latency)
        { entry.origin.standing with inFlight := entry.origin.inFlight - 1 } signal
        (entry.step shared event).origin.standing := by
  rcases step_cases shared entry event with heq | ⟨waited, taken, -, htake, heq⟩ |
    ⟨now, latency, signal, hevent, -, heq⟩ | ⟨now, latency, -, -, heq⟩
  · exact Or.inl (by rw [heq]; exact ⟨rfl, rfl⟩)
  · obtain ⟨-, rfl⟩ := tryTakeSlot_eq_some.mp htake
    exact Or.inl (by rw [heq]; exact ⟨rfl, rfl⟩)
  · refine Or.inr ⟨now, latency, signal, hevent, ?_⟩
    rw [heq]
    exact taught_release signal
  · exact Or.inl (by rw [heq]; exact ⟨rfl, rfl⟩)

end Entry

theorem Taught.ceiling_cases {shared : Shared} {now : Instant} {clean : Prop} {s s' : Standing}
    {signal : Signal} (h : Taught shared now clean s signal s') :
    (s'.ceiling = s.ceiling ∧ s'.ceilingSince = s.ceilingSince) ∨
    ((∃ retryAfter, signal = .backpressure retryAfter) ∧
      s'.ceiling = Nat.min s.ceiling (Nat.max (s.limit / 2) shared.config.min) ∧
      s'.ceilingSince = some now) ∨
    (signal = .healthy ∧ clean ∧ s'.ceiling = s.ceiling + 1 ∧ s'.ceilingSince = some now ∧
      ∃ interval since, shared.ceilingRecovery = some interval ∧ s.ceilingSince = some since ∧
        deadline since interval ≤ now) := by
  cases h with
  | unmoved _ => exact Or.inl ⟨rfl, rfl⟩
  | halved => exact Or.inl ⟨rfl, rfl⟩
  | relaxed hclean | increased hclean _ =>
    rcases relax_cases shared now s with heq | ⟨-, hwhen, heq⟩
    · exact Or.inl (by rw [heq]; exact ⟨rfl, rfl⟩)
    · exact Or.inr (Or.inr ⟨rfl, hclean, by rw [heq], by rw [heq], hwhen⟩)
  | refused retryAfter _ => exact Or.inr (Or.inl ⟨⟨retryAfter, rfl⟩, rfl, rfl⟩)

namespace Entry

variable {shared : Shared} {entry : Entry}

/-- **Without recovery the ceiling is a ratchet.** -/
theorem ceiling_step_le (hrecovery : shared.ceilingRecovery = none) (entry : Entry)
    (event : Event) : (entry.step shared event).origin.ceiling ≤ entry.origin.ceiling := by
  rcases step_ceiling_cases shared entry event with ⟨heq, -⟩ | ⟨now, latency, signal, -, ht⟩
  · exact Nat.le_of_eq heq
  · rcases ht.ceiling_cases with ⟨heq, -⟩ | ⟨-, heq, -⟩ | ⟨-, -, -, -, interval, -, hsome, -⟩
    · exact Nat.le_of_eq heq
    · exact Nat.le_trans (Nat.le_of_eq heq) (Nat.min_le_left _ _)
    · rw [hrecovery] at hsome
      cases hsome

theorem ceiling_run_le (hrecovery : shared.ceilingRecovery = none) (entry : Entry)
    (events : List Event) : (entry.run shared events).origin.ceiling ≤ entry.origin.ceiling := by
  induction events generalizing entry with
  | nil => exact Nat.le_refl _
  | cons event events ih =>
    exact Nat.le_trans (ih _) (ceiling_step_le hrecovery entry event)

theorem ceiling_backpressure_le (now : Instant) (latency : Duration)
    (retryAfter : Option Duration) (hpermit : 0 < entry.permits) :
    (entry.step shared (.complete now latency (.backpressure retryAfter))).origin.ceiling ≤
      max shared.config.min (entry.origin.limit / 2) := by
  have hne : entry.permits ≠ 0 := Nat.ne_of_gt hpermit
  simp only [step, hne, if_false]
  show min entry.origin.ceiling (max (entry.origin.limit / 2) shared.config.min) ≤ _
  rw [Nat.max_comm]
  exact Nat.min_le_right _ _

/-- Without recovery the half a refusal left bounds the limit of every later state. -/
theorem limit_run_backpressure_le (h : entry.Sound shared)
    (hrecovery : shared.ceilingRecovery = none) (now : Instant) (latency : Duration)
    (retryAfter : Option Duration) (later : List Event) (hpermit : 0 < entry.permits) :
    (entry.run shared
        (.complete now latency (.backpressure retryAfter) :: later)).origin.limit ≤
      max shared.config.min (entry.origin.limit / 2) := by
  let refused := entry.step shared (.complete now latency (.backpressure retryAfter))
  have hlimit : (refused.run shared later).origin.limit ≤
      (refused.run shared later).origin.ceiling := ((h.step _).run later).lawful.le_ceiling
  have hratchet : (refused.run shared later).origin.ceiling ≤ refused.origin.ceiling :=
    ceiling_run_le hrecovery refused later
  exact Nat.le_trans hlimit (Nat.le_trans hratchet
    (ceiling_backpressure_le now latency retryAfter hpermit))

/-- An event after which the ceiling is higher. -/
def raises (shared : Shared) (entry : Entry) (event : Event) : Prop :=
  entry.origin.ceiling < (entry.step shared event).origin.ceiling

/-- **A rise is one slot, earned by a clean probe** a deadline after the last move. -/
theorem raises_cases {event : Event} (h : entry.raises shared event) :
    ∃ now latency interval since, event = .complete now latency .healthy ∧
      entry.origin.completesCleanProbe shared latency ∧
      (entry.step shared event).origin.ceiling = entry.origin.ceiling + 1 ∧
      (entry.step shared event).origin.ceilingSince = some now ∧
      shared.ceilingRecovery = some interval ∧ entry.origin.ceilingSince = some since ∧
      deadline since interval ≤ now := by
  unfold raises at h
  rcases step_ceiling_cases shared entry event with ⟨heq, -⟩ | ⟨now, latency, signal, hevent, ht⟩
  · exact absurd h (Nat.not_lt.mpr (Nat.le_of_eq heq))
  · rcases ht.ceiling_cases with
      ⟨heq, -⟩ | ⟨-, heq, -⟩ | ⟨rfl, hclean, heq, hsince, interval, since, hrecovery, hold, hdue⟩
    · exact absurd h (Nat.not_lt.mpr (Nat.le_of_eq heq))
    · have hle : (entry.step shared event).origin.ceiling ≤ entry.origin.ceiling :=
        Nat.le_trans (Nat.le_of_eq heq) (Nat.min_le_left _ _)
      exact absurd h (Nat.not_lt.mpr hle)
    · exact ⟨now, latency, interval, since, hevent, hclean, heq, hsince, hrecovery, hold, hdue⟩

/-! ## The time between two rises -/

/-- The readings are in order where it matters: the deadline a clean probe is held against can be
named, and a refusal is not timed before the ceiling last moved. -/
def timely (shared : Shared) (entry : Entry) : Event → Bool
  | .complete now _ signal =>
    match shared.ceilingRecovery, entry.origin.ceilingSince, signal with
    | some interval, some since, .healthy => since + interval ≤ Instant.latest
    | some _, some since, .backpressure _ => since ≤ now
    | _, _, _ => true
  | _ => true

/-- Every event of the run finds the entry timely. -/
def runTimely (shared : Shared) : Entry → List Event → Bool
  | _, [] => true
  | entry, event :: events =>
    entry.timely shared event && runTimely shared (entry.step shared event) events

theorem runTimely_append (entry : Entry) (front back : List Event) :
    runTimely shared entry (front ++ back) =
      (runTimely shared entry front && runTimely shared (entry.run shared front) back) := by
  induction front generalizing entry with
  | nil => rfl
  | cons event front ih =>
    rw [List.cons_append, runTimely, runTimely, ih, Bool.and_assoc]
    rfl

theorem le_deadline (since : Instant) (interval : Duration) : since ≤ deadline since interval := by
  unfold deadline Instant.checkedAdd
  split_ifs
  · exact Int.le_add_of_nonneg_right (Int.natCast_nonneg interval)
  · exact Int.le_refl _

variable {interval : Duration}

theorem deadline_of_fits {since : Instant} (h : since + interval ≤ Instant.latest) :
    deadline since interval = since + interval := by
  unfold deadline Instant.checkedAdd
  rw [if_pos h]
  rfl

/-- The ceiling last moved at `t` or later. -/
def MovedSince (t : Instant) (entry : Entry) : Prop :=
  ∃ since, entry.origin.ceilingSince = some since ∧ t ≤ since

theorem MovedSince.step {t : Instant} {event : Event}
    (hrecovery : shared.ceilingRecovery = some interval) (h : entry.MovedSince t)
    (htimely : entry.timely shared event) : (entry.step shared event).MovedSince t := by
  obtain ⟨since, hsince, hle⟩ := h
  rcases step_ceiling_cases shared entry event with ⟨-, heq⟩ | ⟨now, latency, signal, rfl, ht⟩
  · exact ⟨since, heq.trans hsince, hle⟩
  · rcases ht.ceiling_cases with
      ⟨-, heq⟩ | ⟨⟨retryAfter, rfl⟩, -, heq⟩ | ⟨-, -, -, heq, _, since', -, hold, hdue⟩
    · exact ⟨since, heq.trans hsince, hle⟩
    · simp only [timely, hrecovery, hsince, decide_eq_true_eq] at htimely
      exact ⟨now, heq, Int.le_trans hle htimely⟩
    · cases Option.some.inj (hsince.symm.trans hold)
      exact ⟨now, heq, Int.le_trans hle (Int.le_trans (le_deadline since _) hdue)⟩

theorem MovedSince.run {t : Instant} (hrecovery : shared.ceilingRecovery = some interval)
    {events : List Event} (h : entry.MovedSince t) (htimely : runTimely shared entry events) :
    (entry.run shared events).MovedSince t := by
  induction events generalizing entry with
  | nil => exact h
  | cons event events ih =>
    rw [runTimely, Bool.and_eq_true] at htimely
    exact ih (h.step hrecovery htimely.1) htimely.2

/-- **Two rises are the interval apart.** -/
theorem rises_apart (hrecovery : shared.ceilingRecovery = some interval) {front mid : List Event}
    {t₁ t₂ : Instant} {l₁ l₂ : Duration} {s₁ s₂ : Signal} (htimely : runTimely shared entry
      (front ++ .complete t₁ l₁ s₁ :: (mid ++ [.complete t₂ l₂ s₂])))
    (hfirst : (entry.run shared front).raises shared (.complete t₁ l₁ s₁))
    (hsecond : (entry.run shared (front ++ .complete t₁ l₁ s₁ :: mid)).raises shared
      (.complete t₂ l₂ s₂)) : t₁ + interval ≤ t₂ := by
  rw [runTimely_append, runTimely, runTimely_append] at htimely
  simp only [runTimely, Bool.and_eq_true] at htimely
  obtain ⟨-, -, hmid, hlast, -⟩ := htimely
  -- The first rise stamps the ceiling, and nothing timely turns the stamp back.
  obtain ⟨_, _, _, _, hevent, -, -, hstamp, -⟩ := raises_cases hfirst
  cases hevent
  have hmoved : ((entry.run shared front).step shared (.complete t₁ l₁ .healthy)).MovedSince t₁ :=
    ⟨t₁, hstamp, Int.le_refl _⟩
  obtain ⟨since, hsince, hle⟩ := hmoved.run hrecovery hmid
  rw [run_append] at hsecond
  obtain ⟨_, _, interval', since', hevent, -, -, -, hsome, hold, hdue⟩ := raises_cases hsecond
  cases hevent
  cases Option.some.inj (hrecovery.symm.trans hsome)
  cases Option.some.inj (hsince.symm.trans hold)
  simp only [timely, hrecovery, hsince, decide_eq_true_eq] at hlast
  rw [deadline_of_fits hlast] at hdue
  exact Int.le_trans (Int.add_le_add_right hle _) hdue

/-! ## The law as a whole -/

/-- **The control law.** For every configuration, recovery setting and run of one entry: the
bounds and the books hold, grants are made below the limit, the ceiling is a ratchet without
recovery, and with it rises by single slots on clean probes, an interval apart when the readings
are timely. -/
theorem control_law (config : Config) (ceilingRecovery : Option Duration)
    (scale : Duration → F64 → Duration) (events : List Event) :
    let shared := Shared.new config ceilingRecovery scale
    let reached := (Entry.new shared.config).run shared
    (shared.config.min ≤ (reached events).origin.limit ∧
      (reached events).origin.limit ≤ (reached events).origin.ceiling ∧
      (reached events).origin.ceiling ≤ shared.config.max ∧
      (reached events).origin.inFlight = (reached events).permits ∧
      ((reached events).origin.ceiling < shared.config.max →
        (reached events).origin.ceilingSince.isSome)) ∧
    (∀ event, (reached events).permits < ((reached events).step shared event).permits →
      (reached events).origin.inFlight < (reached events).origin.limit) ∧
    (ceilingRecovery = none → ∀ later,
      (reached (events ++ later)).origin.ceiling ≤ (reached events).origin.ceiling ∧
      ∀ now latency retryAfter, 0 < (reached events).permits →
        (reached (events ++ .complete now latency (.backpressure retryAfter) :: later)).origin.limit
          ≤ max shared.config.min ((reached events).origin.limit / 2)) ∧
    (∀ event, (reached events).raises shared event →
      ∃ now latency, event = .complete now latency .healthy ∧
        (reached events).origin.completesCleanProbe shared latency ∧
        ((reached events).step shared event).origin.ceiling =
          (reached events).origin.ceiling + 1) ∧
    (∀ interval, ceilingRecovery = some interval →
      runTimely shared (Entry.new shared.config) events →
      ∀ front mid t₁ l₁ s₁ t₂ l₂ s₂,
        events = front ++ .complete t₁ l₁ s₁ :: (mid ++ [.complete t₂ l₂ s₂]) →
        (reached front).raises shared (.complete t₁ l₁ s₁) →
        (reached (front ++ .complete t₁ l₁ s₁ :: mid)).raises shared (.complete t₂ l₂ s₂) →
        t₁ + interval ≤ t₂) := by
  intro shared reached
  have hsound : ∀ events, (reached events).Sound shared :=
    fun events => (sound_new config.sanitised_min_le_max).run events
  have hlawful := (hsound events).lawful
  refine ⟨⟨hlawful.min_le, hlawful.le_ceiling, hlawful.le_max, (hsound events).permits,
    hlawful.since⟩, fun event => lt_limit_of_grant, ?_, ?_, ?_⟩
  · intro hrecovery later
    have hnone : shared.ceilingRecovery = none := hrecovery
    refine ⟨?_, fun now latency retryAfter hpermit => ?_⟩
    · show ((Entry.new shared.config).run shared (events ++ later)).origin.ceiling ≤ _
      rw [run_append]
      exact ceiling_run_le hnone _ later
    · show ((Entry.new shared.config).run shared (events ++ _)).origin.limit ≤ _
      rw [run_append]
      exact limit_run_backpressure_le (hsound events) hnone now latency retryAfter later hpermit
  · intro event hraises
    obtain ⟨now, latency, -, -, hevent, hclean, heq, -⟩ := raises_cases hraises
    exact ⟨now, latency, hevent, hclean, heq⟩
  · intro interval hrecovery htimely front mid t₁ l₁ s₁ t₂ l₂ s₂ hevents hfirst hsecond
    subst hevents
    exact rises_apart hrecovery htimely hfirst hsecond

/-- Up to four slots, a verdict on every response, and no holds. -/
def quickConfig : Config :=
  { Config.default with max := 4, probe := 1, cleanProbesBeforeIncrease := 1, hold := 0 }

/-- One request, answered at once. -/
def exchange (now : Instant) (signal : Signal) : List Event :=
  [.take false, .complete now 0 signal]

/-- A refusal, the probe that sets the baseline again, and two clean probes a minute apart. -/
theorem minute_apart_rises :
    let shared := Shared.new quickConfig (some (Duration.fromSecs 60)) fun span _ => span
    let front := exchange 0 (.backpressure none) ++ exchange 0 .healthy ++ [.take false]
    let first := Duration.fromSecs 60
    let second := Duration.fromSecs 120
    ((Entry.new shared.config).run shared front).raises shared (.complete first 0 .healthy) ∧
      (first : Instant) + Duration.fromSecs 60 ≤ second := by
  intro shared front first second
  have hfirst : ((Entry.new shared.config).run shared front).raises shared
      (.complete first 0 .healthy) := by
    unfold raises
    decide
  refine ⟨hfirst, ?_⟩
  refine (control_law quickConfig (some (Duration.fromSecs 60)) (fun span _ => span)
    (front ++ .complete first 0 .healthy :: ([.take false] ++ [.complete second 0 .healthy]))
    ).2.2.2.2 _ rfl (by decide) front [.take false] first 0 .healthy second 0 .healthy rfl hfirst ?_
  unfold raises
  decide

/-- The longest interval there is: its deadline cannot be named, `deadline` gives the instant the
ceiling moved, and every clean probe raises it. -/
theorem longest_interval_recovers_at_once :
    let shared := Shared.new quickConfig (some Duration.max) fun span _ => span
    let front := exchange 0 (.backpressure none) ++ exchange 0 .healthy ++ [.take false]
    let event := Event.complete 0 0 .healthy
    let reached := (Entry.new shared.config).run shared
    ((reached front).raises shared event ∧
      (reached (front ++ event :: [.take false])).raises shared event) ∧
      ¬ (0 : Instant) + Duration.max ≤ 0 := by
  unfold raises
  decide

/-- A refusal timed at zero is processed after the rise at one minute, and the next rise comes
half a minute after that one. -/
example :
    let shared := Shared.new quickConfig (some (Duration.fromSecs 60)) fun span _ => span
    let front := exchange 0 (.backpressure none) ++ exchange 0 .healthy ++ [.take false]
    let first := Event.complete (Duration.fromSecs 60) 0 .healthy
    let mid := exchange 0 (.backpressure none) ++ exchange 0 .healthy ++ [.take false]
    let second := Event.complete (Duration.fromSecs 90) 0 .healthy
    let reached := (Entry.new shared.config).run shared
    (reached front).raises shared first ∧
      (reached (front ++ first :: mid)).raises shared second := by
  unfold raises
  decide

end Entry

end Chromulate.Concurrency
