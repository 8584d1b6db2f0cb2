import Chromulate.Concurrency.Date
import Chromulate.Concurrency.Law
import Chromulate.Http.Message

/-!
# How long a refusal pauses

`retry_after_delay` of `chromulate-concurrency/src/adaptive.rs` reads the header of a refusal, and
`refuse` makes a pause of it. Each refusal writes the end of its own pause over the one before, and
digits that do not fit sixty-four bits count as no instruction at all.

**Theorem (`pauses_grow_iff`).** A sequence of refusals never moves the end of the pause back
exactly if the ends they ask for (`Report.ends`) are in order. A longer `Retry-After` never gives a
shorter pause exactly if the pause without one is already as long as any.
-/

namespace Chromulate.Concurrency

open Date Text

def retryAfterDelay (headers : HeaderMap) (now : SystemTime) : Option Duration := do
  let value ← HeaderMap.get headers .retryAfter
  let text ← value.toStr
  let value := trim text
  match parseUnsigned (2 ^ 64 - 1) value with
  | some seconds => some (Duration.fromSecs seconds)
  | none =>
    let target ← httpDate value
    let since :=
      (((HeaderMap.get headers .date).bind HeaderValue.toStr).bind httpDate).getD now
    some ((SystemTime.durationSince target since).getD 0)

/-- A `429` or `503` as it is reported: its fields, the wall clock, and what the permit measured. -/
structure Report where
  headers : HeaderMap
  wallClock : SystemTime
  now : Instant
  latency : Duration

def Report.signal (report : Report) : Signal :=
  .backpressure (retryAfterDelay report.headers report.wallClock)

/-- The pause a report earns as the `refusals`-th of its entry. -/
def Report.pause (config : Config) (refusals : Nat) (report : Report) : Duration :=
  Origin.pauseFor config refusals (retryAfterDelay report.headers report.wallClock)

/-! ## What a header asks for -/

/-- A number without its sign. -/
def unsigned : Str → Str
  | '+' :: digits => digits
  | text => text

/-- The text of a field. -/
def Report.text (report : Report) (name : HeaderName) : Option Str :=
  (HeaderMap.get report.headers name).bind HeaderValue.toStr

/-- What a report asks for: the seconds it names, if there are fewer than `2 ^ 64`, or the time
until the date it names, counted from its own date or, if it has none, from the wall clock. -/
def Report.asks (report : Report) : Option Duration :=
  ((report.text .retryAfter).map trim).bind fun text =>
    if isDigits (unsigned text) then
      if digitsValue (unsigned text) < 2 ^ 64 then
        some (Duration.fromSecs (digitsValue (unsigned text)))
      else none
    else (httpDate text).map fun target =>
      (target - ((report.text .date).bind httpDate).getD report.wallClock).toNat

/-- When the pause ends that the `refusals`-th refusal of an entry asks for, or that it gets
without asking. -/
def Report.ends (config : Config) (refusals : Nat) (report : Report) : Instant :=
  let span : Duration := match report.asks with
    | some span => min span config.maxPause
    | none => cooldown config refusals
  if report.now + span ≤ Instant.latest then report.now + span else report.now

theorem parseUnsigned_eq (max : Nat) (text : Str) :
    parseUnsigned max text =
      if isDigits (unsigned text) && digitsValue (unsigned text) ≤ max then
        some (digitsValue (unsigned text))
      else none := by
  cases text with
  | nil => rfl
  | cons c rest =>
    by_cases hc : c = '+'
    · rw [hc]
      rfl
    · simp [parseUnsigned, unsigned, hc]

theorem httpDate_number {text : Str} (h : isDigits (unsigned text)) :
    httpDate text = none := by
  have hplain : ∀ c ∈ text, c.isDigit ∨ c = '+' := by
    intro c hc
    unfold unsigned at h
    split at h
    · rcases List.mem_cons.mp hc with hsign | hdigit
      · exact Or.inr hsign
      · exact Or.inl (isDigit_of_mem h c hdigit)
    · exact Or.inl (isDigit_of_mem h c hc)
  have hcomma : splitOnce ',' text = none := by
    cases hsplit : splitOnce ',' text with
    | none => rfl
    | some parts =>
      have heq := (splitOnce_eq_some.mp hsplit).1
      have hmem : ',' ∈ text := by rw [heq]; simp
      exact absurd (hplain _ hmem) (by decide)
  have hone : text.splitOnP (fun c => c == ' ' || c == '\t') = [text] := by
    apply List.splitOnP_eq_singleton
    intro c hc
    have hdigit := hplain c hc
    by_contra hblank
    rw [Bool.not_eq_false, Bool.or_eq_true, beq_iff_eq, beq_iff_eq] at hblank
    rcases hblank with rfl | rfl
    · exact absurd hdigit (by decide)
    · exact absurd hdigit (by decide)
  have htrim : trim text = text := by
    apply trimMatches_of_forall
    intro c hc
    rcases hplain c hc with hdigit | rfl
    · exact not_isWhitespace_of_isDigit hdigit
    · decide
  have hcomponents : components text = none := by
    rw [components, hcomma]
    simp only [fieldsOf, hone]
    cases hempty : text.isEmpty <;> simp [hempty, next]
  rw [httpDate, htrim, hcomponents]
  rfl

/-- **`retry_after_delay` reads what is asked for.** -/
theorem retryAfterDelay_eq (report : Report) :
    retryAfterDelay report.headers report.wallClock = report.asks := by
  unfold retryAfterDelay Report.asks Report.text
  cases HeaderMap.get report.headers .retryAfter with
  | none => rfl
  | some value =>
    cases htext : value.toStr with
    | none => simp [htext]
    | some text =>
      simp only [htext, Option.bind_eq_bind, Option.bind_some, Option.map_some, parseUnsigned_eq]
      by_cases hdigits : isDigits (unsigned (trim text)) = true
      · by_cases hfits : digitsValue (unsigned (trim text)) < 2 ^ 64
        · rw [if_pos (by simp only [hdigits, Bool.true_and, decide_eq_true_eq]; omega),
            if_pos hdigits, if_pos hfits]
        · rw [if_neg (by simp only [hdigits, Bool.true_and, decide_eq_true_eq]; omega),
            if_pos hdigits, if_neg hfits, httpDate_number hdigits]
          rfl
      · simp only [hdigits, Bool.false_and, if_false, Bool.false_eq_true]
        cases httpDate (trim text) with
        | none => rfl
        | some target =>
          simp only [Option.bind_some, Option.map_some, SystemTime.durationSince]
          split_ifs with hle
          · rfl
          · rw [Option.getD_none, Option.some_inj, eq_comm, Int.toNat_eq_zero]
            exact Int.sub_nonpos_of_le (Int.le_of_lt (Int.not_le.mp hle))

theorem resume_eq (config : Config) (refusals : Nat) (report : Report) :
    deadline report.now (report.pause config refusals) = report.ends config refusals := by
  have hspan : ∀ span : Duration, deadline report.now span =
      if report.now + span ≤ Instant.latest then report.now + span else report.now := by
    intro span
    rw [deadline, Instant.checkedAdd]
    split_ifs <;> rfl
  rw [hspan, Report.pause, retryAfterDelay_eq, Report.ends]
  cases report.asks <;> rfl

/-! ## One refusal after the other -/

/-- An entry after a report. -/
def Origin.report (shared : Shared) (origin : Origin) (report : Report) : Origin :=
  origin.release shared report.now report.latency (some report.signal)

/-- No report moves the end of the pause back. -/
def Grows (shared : Shared) : Origin → List Report → Prop
  | _, [] => True
  | origin, report :: reports =>
    (∀ before after, origin.resumeAt = some before →
      (origin.report shared report).resumeAt = some after → before ≤ after) ∧
    Grows shared (origin.report shared report) reports

/-- The ends of the pauses for some reports, after `refusals` others. The count stops at the end
of its type. -/
def ends (config : Config) (refusals : Nat) (reports : List Report) : List Instant :=
  reports.mapIdx fun i report => report.ends config (min (refusals + i + 1) u32Max)

theorem resumeAt_report (shared : Shared) (origin : Origin) (report : Report) :
    (origin.report shared report).resumeAt =
      some (report.ends shared.config (min (origin.refusals + 1) u32Max)) := by
  rw [← resume_eq]
  rfl

theorem refusals_report (shared : Shared) (origin : Origin) (report : Report) :
    (origin.report shared report).refusals = min (origin.refusals + 1) u32Max := rfl

/-- A count that has stopped stays where it is. -/
theorem ends_min (config : Config) (refusals : Nat) (reports : List Report) :
    ends config (min refusals u32Max) reports = ends config refusals reports := by
  unfold ends
  congr 1
  funext i report
  congr 1
  omega

/-- **The pause only grows if each refusal reaches as far as the one before.** -/
theorem grows_iff (shared : Shared) (origin : Origin) (reports : List Report) :
    Grows shared origin reports ↔
      (origin.resumeAt.toList ++
        ends shared.config origin.refusals reports).IsChain (· ≤ ·) := by
  induction reports generalizing origin with
  | nil =>
    cases origin.resumeAt <;> simp [Grows, ends]
  | cons report reports ih =>
    have hrest := ih (origin.report shared report)
    rw [resumeAt_report, refusals_report, ends_min, Option.toList_some, List.singleton_append]
      at hrest
    have hcons : ends shared.config origin.refusals (report :: reports) =
        report.ends shared.config (min (origin.refusals + 1) u32Max) ::
          ends shared.config (origin.refusals + 1) reports := by
      simp only [ends, List.mapIdx_cons, Nat.add_zero, Nat.add_right_comm _ 1, ← Nat.add_assoc]
    rw [Grows, hrest, hcons, resumeAt_report]
    cases origin.resumeAt with
    | none => simp
    | some before => simp [List.isChain_cons_cons]

/-! ## Digits -/

/-- The report names this many seconds in digits. -/
def Report.Names (report : Report) (digits : Str) : Prop :=
  ∃ value, HeaderMap.get report.headers .retryAfter = some value ∧ value.toStr = some digits ∧
    isDigits digits

/-- More seconds never give a shorter pause. -/
def MonotonePause (config : Config) (refusals : Nat) : Prop :=
  ∀ (report other : Report) (digits more : Str), report.Names digits → other.Names more →
    digitsValue digits ≤ digitsValue more →
      report.pause config refusals ≤ other.pause config refusals

/-- **What digits come to**: their seconds up to the longest pause, or nothing if they do not
fit. -/
theorem pause_of_names {report : Report} {digits : Str} (h : report.Names digits)
    (config : Config) (refusals : Nat) :
    report.pause config refusals =
      if digitsValue digits ≤ 2 ^ 64 - 1 then
        min (Duration.fromSecs (digitsValue digits)) config.maxPause
      else cooldown config refusals := by
  obtain ⟨value, hvalue, htext, hdigits⟩ := h
  have hunsigned : unsigned digits = digits := by
    unfold unsigned
    split
    · exact absurd (isDigit_of_mem hdigits _ List.mem_cons_self) (by decide)
    · rfl
  have hasks : report.asks =
      if digitsValue digits ≤ 2 ^ 64 - 1 then
        some (Duration.fromSecs (digitsValue digits))
      else none := by
    simp only [Report.asks, Report.text, hvalue, htext, Option.bind_some, Option.map_some,
      trim_digits hdigits, hunsigned, hdigits, if_true,
      Nat.lt_iff_le_pred (Nat.two_pow_pos 64)]
  rw [Report.pause, retryAfterDelay_eq, hasks]
  split_ifs <;> rfl

theorem exists_names (seconds : Nat) : ∃ report : Report, report.Names (decimal seconds) := by
  have hdigits := isDigits_decimal seconds
  have hsafe : ∀ c ∈ decimal seconds, isHeaderSafe c := by
    intro c hc
    have hbounds := toNat_of_isDigit (isDigit_of_mem hdigits c hc)
    simp only [isHeaderSafe, Bool.or_eq_true, Bool.and_eq_true, decide_eq_true_eq]
    right
    omega
  obtain ⟨value, -, htext⟩ := HeaderValue.fromStr_of_safe hsafe
  exact ⟨⟨[(.retryAfter, value)], 0, 0, 0⟩, value, rfl, htext, hdigits⟩

/-- **More seconds give no shorter pause exactly if naming none gives the longest.** -/
theorem monotonePause_iff {config : Config} (hmax : config.maxPause ≤ 2 ^ 64 - 1) (refusals : Nat) :
    MonotonePause config refusals ↔ config.maxPause ≤ cooldown config refusals := by
  constructor
  · intro h
    obtain ⟨report, hreport⟩ := exists_names config.maxPause
    obtain ⟨other, hother⟩ := exists_names (2 ^ 64)
    have hfewer : config.maxPause ≤ 2 ^ 64 := Nat.le_trans hmax (by decide)
    have hle := h report other _ _ hreport hother (by
      rwa [digitsValue_decimal, digitsValue_decimal])
    rw [pause_of_names hreport, pause_of_names hother, digitsValue_decimal,
      digitsValue_decimal, if_pos hmax, if_neg (by decide)] at hle
    have hlong : config.maxPause ≤ Duration.fromSecs config.maxPause :=
      Nat.le_mul_of_pos_right _ (by decide)
    rwa [Nat.min_eq_right hlong] at hle
  · intro hcooldown report other digits more hreport hother hle
    rw [pause_of_names hreport, pause_of_names hother]
    by_cases hmore : digitsValue more ≤ 2 ^ 64 - 1
    · rw [if_pos hmore, if_pos (Nat.le_trans hle hmore)]
      have hseconds : Duration.fromSecs (digitsValue digits) ≤
          Duration.fromSecs (digitsValue more) := Nat.mul_le_mul_right _ hle
      exact min_le_min_right _ hseconds
    · rw [if_neg hmore]
      split_ifs
      · exact Nat.le_trans (Nat.min_le_right _ _) hcooldown
      · exact Nat.le_refl _

/-! ## The two together -/

/-- **When a pause only grows**, from every state of an entry: over refusals, if the ends they name
are in order, and over the seconds that are named, if the pause for naming none is the longest. -/
theorem pauses_grow_iff (config : Config) (ceilingRecovery : Option Duration)
    (scale : Duration → F64 → Duration) (origin : Origin) (reports : List Report)
    (refusals : Nat) :
    let shared := Shared.new config ceilingRecovery scale
    (Grows shared origin reports ↔
      (origin.resumeAt.toList ++ ends shared.config origin.refusals reports).IsChain (· ≤ ·)) ∧
    (MonotonePause shared.config refusals ↔
      shared.config.maxPause ≤ cooldown shared.config refusals) := by
  intro shared
  refine ⟨grows_iff shared origin reports, monotonePause_iff ?_ refusals⟩
  have hday : shared.config.maxPause ≤ Duration.fromSecs 86400 := Nat.min_le_right _ _
  exact Nat.le_trans hday (by decide)

/-- A refusal at the start of the clock with this `Retry-After`. -/
def reportOf (retryAfter : String) : Report := ⟨[(.retryAfter, .fromStatic retryAfter)], 0, 0, 0⟩

/-- One hour at most, and one hour without an instruction. -/
def patient : Config :=
  { Config.default with cooldown := Duration.fromSecs 3600, maxCooldown := Duration.fromSecs 3600 }

theorem pauses_grow_patient :
    let shared := Shared.new patient none fun span _ => 2 * span
    Grows shared (Origin.new shared.config) [reportOf "1", reportOf "120"] ∧
      MonotonePause shared.config 1 := by
  intro shared
  have hiffs := pauses_grow_iff patient none (fun span _ => 2 * span) (Origin.new shared.config)
    [reportOf "1", reportOf "120"] 1
  exact ⟨hiffs.1.mpr (by decide +kernel), hiffs.2.mpr (by decide +kernel)⟩

/-- Two minutes are cut to a second by the next refusal, and a number that does not fit gives five
seconds where an hour gives an hour. -/
theorem pause_shrinks :
    let shared := Shared.new .default none fun span _ => 2 * span
    let first := (Origin.new shared.config).report shared (reportOf "120")
    let second := first.report shared (reportOf "1")
    first.resumeAt = some (Duration.fromSecs 120) ∧ second.resumeAt = some (Duration.fromSecs 1) ∧
      (reportOf "3600").pause shared.config 1 = Duration.fromSecs 3600 ∧
      (reportOf "18446744073709551616").pause shared.config 1 = Duration.fromSecs 5 := by
  decide +kernel

end Chromulate.Concurrency
