import Chromulate.Http.Engine
import Mathlib.Algebra.Order.Field.Basic
import Mathlib.Algebra.Order.Field.Rat
import Mathlib.Data.List.Range
import Mathlib.Tactic.FieldSimp
import Mathlib.Tactic.Linarith
import Mathlib.Tactic.NormNum
import Mathlib.Tactic.Ring

/-!
# Retrying

`chromulate-http/src/middleware/retry.rs`: an exchange that is repeated while what comes back is
worth another attempt. Waits are counted in nanoseconds and the share that jitter keeps is an exact
rational, so a wait is a rational number.

**The loop** (`exchange`) runs on a tape, which has an outcome and a draw for each attempt.
`exchange_shape` says where on the tape it stops and what it has done by then.

**Theorem (`neverBackwards_iff`).** With jitter the waits of a policy stay in order exactly if the
last two of them are a factor of 5/4 apart. Before the ceiling they are a factor of 2 apart; from
the ceiling on they are all the same, and then the draws alone decide which is longer.

**Theorem (`retries_iff`).** The loop keeps every promise of its policy, except that it takes a
`Retry-After` of 2^64 seconds or more for none at all.
-/

namespace Chromulate.Http.Retry

open Text

/-! ## Policies -/

inductive RetryOn where
  | idempotentMethods
  | anyMethod
  deriving DecidableEq

structure RetryPolicy where
  maxRetries : Nat
  baseDelay : Duration
  maxDelay : Duration
  retryOn : RetryOn
  jitter : Bool
  honourRetryAfter : Bool
  maxDelay_le : maxDelay ≤ Duration.max

namespace RetryPolicy

theorem tenSeconds_le : Duration.fromSecs 10 ≤ Duration.max := by decide

def default : RetryPolicy where
  maxRetries := 2
  baseDelay := Duration.fromMillis 250
  maxDelay := Duration.fromSecs 10
  retryOn := .idempotentMethods
  jitter := true
  honourRetryAfter := true
  maxDelay_le := tenSeconds_le

def backoff (policy : RetryPolicy) (attempt : Nat) : Duration :=
  let factor := min (2 ^ attempt) (2 ^ 32 - 1)
  min (policy.baseDelay.saturatingMul factor) policy.maxDelay

end RetryPolicy

/-- What jitter may keep of a wait. -/
def Keep : Type := { keep : ℚ // 4 / 5 < keep ∧ keep ≤ 1 }

theorem keep_one : 4 / 5 < (1 : ℚ) ∧ (1 : ℚ) ≤ 1 := by norm_num

def Keep.all : Keep := ⟨1, keep_one⟩

/-- A backoff, less what jitter takes off it. -/
def jittered (policy : RetryPolicy) (attempt : Nat) (keep : Keep) : ℚ :=
  if policy.jitter then policy.backoff attempt * keep.1 else policy.backoff attempt

def delay (policy : RetryPolicy) (attempt : Nat) (keep : Keep) (retryAfter : Option Duration) : ℚ :=
  let delay := jittered policy attempt keep
  match retryAfter with
  | some after =>
    if policy.honourRetryAfter then min (max delay after) policy.maxDelay else delay
  | none => delay

/-! ## Outcomes -/

inductive Phase where
  | build
  | resolve
  | connect
  | handshake
  | send
  | awaitResponse
  | receiveBody
  deriving DecidableEq

/-- `Error`, by what `is_retryable` tells apart; every variant has its own text. -/
inductive Failure where
  | resolve (text : Str)
  | connect (text : Str)
  | tls (text : Str)
  | timeout (phase : Phase)
  | proxy (text : Str)
  | protocol (text : Str)
  | body (phase : Phase) (text : Str)
  | other (text : Str)
  deriving DecidableEq

def Failure.isRetryable : Failure → Bool
  | .resolve _ | .connect _ => true
  | .tls _ => false
  | .timeout phase =>
    phase = .resolve ∨ phase = .connect ∨ phase = .handshake ∨ phase = .awaitResponse
  | .proxy _ => true
  | .protocol _ => false
  | .body _ _ => false
  | .other _ => false

/-- What the inner exchange comes back with. -/
abbrev Outcome := Except Failure Cache.Response

def shouldRetryStatus (status : StatusCode) : Bool :=
  status = 429 ∨ status = 502 ∨ status = 503 ∨ status = 504

def isIdempotent : Method → Bool
  | .get | .head | .put | .delete | .options | .trace => true
  | _ => false

def parseRetryAfter (value : Option HeaderValue) : Option Duration := do
  let text ← (← value).toStr
  let seconds ← parseUnsigned (2 ^ 64 - 1) (trim text)
  some (Duration.fromSecs seconds)

/-- Whether an outcome is worth another attempt, and the wait it asks for. -/
def again : Outcome → Option (Option Duration)
  | .ok response =>
    if shouldRetryStatus response.status then
      some (parseRetryAfter (response.headers.get .retryAfter))
    else none
  | .error error => if error.isRetryable then some none else none

/-! ## The loop -/

/-- What an attempt meets: how the inner exchange ends, and what jitter draws after it. -/
structure Attempt where
  outcome : Outcome
  keep : Keep

/-- A call of the inner exchange, and the sleep before the next one. -/
structure Call where
  request : Request
  outcome : Outcome
  slept : Option ℚ

def mayReplay (policy : RetryPolicy) (request : Request) : Bool :=
  let methodAllows := match policy.retryOn with
    | .anyMethod => true
    | .idempotentMethods => isIdempotent request.method
  methodAllows && request.body.tryClone.isSome

/-- A turn of the loop. -/
def turn (policy : RetryPolicy) (request : Request) (attempt : Nat) (met : Attempt) :
    Call × (Nat ⊕ Outcome) :=
  match request.body.tryClone with
  | none => (⟨request, met.outcome, none⟩, .inr met.outcome)
  | some replay =>
    let sent := { request with body := replay }
    match again met.outcome with
    | none => (⟨sent, met.outcome, none⟩, .inr met.outcome)
    | some retryAfter =>
      if policy.maxRetries ≤ attempt then (⟨sent, met.outcome, none⟩, .inr met.outcome)
      else
        (⟨sent, met.outcome, some (delay policy attempt met.keep retryAfter)⟩, .inl (attempt + 1))

/-- `Retrying::exchange`: the calls, and what is returned. -/
def exchange (policy : RetryPolicy) (request : Request) (tape : Nat → Attempt) :
    List Call × Option Outcome :=
  if policy.maxRetries = 0 || !mayReplay policy request then
    ([⟨request, (tape 0).outcome, none⟩], some (tape 0).outcome)
  else Loop.run (turn policy request) 0 ((List.range (policy.maxRetries + 1)).map tape)

section Shape

variable {policy : RetryPolicy} {request : Request} {tape : Nat → Attempt}

/-- The call of an attempt that is followed by another. -/
def retried (policy : RetryPolicy) (request : Request) (tape : Nat → Attempt) (n : Nat) : Call :=
  ⟨request, (tape n).outcome,
    some (delay policy n (tape n).keep (again (tape n).outcome).join)⟩

/-- A run from one attempt on that stops at attempt `last`. -/
structure Stops (policy : RetryPolicy) (request : Request) (tape : Nat → Attempt)
    (first last : Nat) (run : List Call × Option Outcome) : Prop where
  calls : run.1 = (List.range' first (last - first)).map (retried policy request tape) ++
    [⟨request, (tape last).outcome, none⟩]
  returned : run.2 = some (tape last).outcome
  within : last ≤ policy.maxRetries
  retries : ∀ n, first ≤ n → n < last → (again (tape n).outcome).isSome

theorem run_shape (hclone : request.body.tryClone = some request.body) (left first : Nat)
    (hleft : first + left = policy.maxRetries) :
    ∃ last, first ≤ last ∧
      Stops policy request tape first last
        (Loop.run (turn policy request) first ((List.range' first (left + 1)).map tape)) ∧
      (last = policy.maxRetries ∨ again (tape last).outcome = none) := by
  induction left generalizing first with
  | zero =>
    refine ⟨first, le_refl _, ⟨?_, ?_, by omega, by intro n; omega⟩, Or.inl (by omega)⟩
    all_goals
      have hlast : policy.maxRetries ≤ first := by omega
      cases hagain : again (tape first).outcome <;>
        simp [List.range', Loop.run, turn, hclone, hagain, hlast]
  | succ left ih =>
    rw [List.range'_succ, List.map_cons]
    cases hagain : again (tape first).outcome with
    | none =>
      refine ⟨first, le_refl _, ⟨?_, ?_, by omega, by intro n; omega⟩, Or.inr hagain⟩ <;>
        simp [Loop.run, turn, hclone, hagain]
    | some retryAfter =>
      obtain ⟨last, hle, hstops, hend⟩ := ih (first + 1) (by omega)
      have hmore : ¬ policy.maxRetries ≤ first := by omega
      have hturn : turn policy request first (tape first) =
          (retried policy request tape first, .inl (first + 1)) := by
        simp [turn, hclone, hagain, hmore, retried]
      have hcalls : (List.range' first (last - first)).map (retried policy request tape) =
          retried policy request tape first ::
            (List.range' (first + 1) (last - (first + 1))).map (retried policy request tape) := by
        have hlength : last - first = last - (first + 1) + 1 := by omega
        rw [hlength, List.range'_succ, List.map_cons]
      refine ⟨last, by omega, ⟨?_, ?_, hstops.within, ?_⟩, hend⟩
      · rw [hcalls, List.cons_append, Loop.run, hturn]
        exact congrArg _ hstops.calls
      · rw [Loop.run, hturn]
        exact hstops.returned
      · intro n hn hlt
        by_cases heq : n = first
        · rw [heq, hagain]
          rfl
        · exact hstops.retries n (by omega) hlt

/-- **Where the loop stops**: at the first outcome that is not worth another attempt, or when there
are no attempts left. -/
theorem exchange_shape (policy : RetryPolicy) (request : Request) (tape : Nat → Attempt) :
    ∃ last, Stops policy request tape 0 last (exchange policy request tape) ∧
      (mayReplay policy request = false → last = 0) ∧
      (mayReplay policy request →
        last = policy.maxRetries ∨ again (tape last).outcome = none) := by
  by_cases honce : policy.maxRetries = 0 || !mayReplay policy request
  · refine ⟨0, ⟨?_, ?_, Nat.zero_le _, by intro n; omega⟩, by simp, ?_⟩
    · simp [exchange, honce]
    · simp [exchange, honce]
    · intro hreplay
      left
      simpa [hreplay, eq_comm] using honce
  · have hreplay : mayReplay policy request := by
      by_contra hnot
      simp [hnot] at honce
    obtain ⟨copy, hcopy⟩ : ∃ copy, request.body.tryClone = some copy := by
      simp only [mayReplay, Bool.and_eq_true] at hreplay
      exact Option.isSome_iff_exists.mp hreplay.2
    have hclone : request.body.tryClone = some request.body :=
      hcopy.trans (congrArg some (Body.eq_of_tryClone hcopy))
    obtain ⟨last, -, hstops, hend⟩ :=
      @run_shape policy request tape hclone policy.maxRetries 0 (by omega)
    refine ⟨last, ?_, fun hnot => absurd hreplay (by simp [hnot]), fun _ => hend⟩
    rw [exchange, if_neg honce, List.range_eq_range']
    exact hstops

variable {last : Nat} {run : List Call × Option Outcome}

theorem Stops.getElem? (h : Stops policy request tape 0 last run) {n : Nat} (hn : n < last) :
    run.1[n]? = some (retried policy request tape n) := by
  have hlength : n < ((List.range' 0 (last - 0)).map (retried policy request tape)).length := by
    simpa using hn
  rw [h.calls, List.getElem?_append_left hlength, List.getElem?_map,
    List.getElem?_range' (by simpa)]
  simp

theorem Stops.length (h : Stops policy request tape 0 last run) : run.1.length = last + 1 := by
  rw [h.calls]
  simp

theorem Stops.sleeps (h : Stops policy request tape 0 last run) :
    run.1.filterMap Call.slept =
      (List.range last).map fun n =>
        delay policy n (tape n).keep (again (tape n).outcome).join := by
  rw [h.calls, List.filterMap_append, List.filterMap_map, ← List.range_eq_range', Nat.sub_zero]
  simp [Function.comp_def, retried, List.filterMap_eq_map']

end Shape

/-! ## The schedule -/

/-- No outcome on the tape names a wait. -/
def Silent (tape : Nat → Attempt) : Prop :=
  ∀ n response, (tape n).outcome = .ok response → response.headers.get .retryAfter = none

/-- The waits of every run stay in order and below the ceiling. -/
def NeverBackwards (policy : RetryPolicy) : Prop :=
  ∀ (request : Request) (tape : Nat → Attempt), Silent tape →
    let waits := (exchange policy request tape).1.filterMap Call.slept
    waits.IsChain (· ≤ ·) ∧ ∀ wait ∈ waits, wait ≤ policy.maxDelay

/-- Two nominal waits that no draws can put in the wrong order. -/
def Apart (policy : RetryPolicy) (attempt : Nat) : Prop :=
  5 * policy.backoff attempt ≤ 4 * policy.backoff (attempt + 1)

theorem Silent.again_join {tape : Nat → Attempt} (h : Silent tape) (n : Nat) :
    (again (tape n).outcome).join = none := by
  cases hout : (tape n).outcome with
  | error error => by_cases herror : error.isRetryable <;> simp [again, herror]
  | ok response =>
    by_cases hstatus : shouldRetryStatus response.status <;>
      simp [again, hstatus, h n response hout, parseRetryAfter]

theorem backoff_le (policy : RetryPolicy) (attempt : Nat) :
    policy.backoff attempt ≤ policy.maxDelay := Nat.min_le_right _ _

theorem backoff_mono (policy : RetryPolicy) (attempt : Nat) :
    policy.backoff attempt ≤ policy.backoff (attempt + 1) := by
  have hfactor : min (2 ^ attempt) (2 ^ 32 - 1) ≤ min (2 ^ (attempt + 1)) (2 ^ 32 - 1) :=
    min_le_min (Nat.pow_le_pow_right (by decide) (Nat.le_succ _)) le_rfl
  have hmul := Nat.mul_le_mul_left policy.baseDelay hfactor
  exact min_le_min (min_le_min hmul le_rfl) le_rfl

/-- Waits that are apart are below the ceiling, so the wait before them has been doubled. -/
theorem Apart.of_succ {policy : RetryPolicy} {attempt : Nat} (h : Apart policy (attempt + 1)) :
    Apart policy attempt := by
  have arith : ∀ x y most ceiling : Nat,
      5 * min (min (2 * x) most) ceiling ≤ 4 * min (min y most) ceiling →
        5 * min (min x most) ceiling ≤ 4 * min (min (2 * x) most) ceiling := by omega
  have flat : ∀ x y most ceiling : Nat, x ≤ y →
      5 * min (min y most) ceiling ≤ 4 * min (min y most) ceiling →
        5 * min (min x most) ceiling ≤ 4 * min (min y most) ceiling := by omega
  simp only [Apart, RetryPolicy.backoff, Duration.saturatingMul] at h ⊢
  by_cases hfits : 2 ^ (attempt + 1) ≤ 2 ^ 32 - 1
  · have hhere : min (2 ^ attempt) (2 ^ 32 - 1) = 2 ^ attempt := by
      rw [Nat.pow_succ] at hfits
      omega
    have hnext : policy.baseDelay * min (2 ^ (attempt + 1)) (2 ^ 32 - 1) =
        2 * (policy.baseDelay * 2 ^ attempt) := by
      rw [Nat.min_eq_left hfits, Nat.pow_succ]
      ring
    rw [hnext] at h ⊢
    rw [hhere]
    exact arith _ _ _ _ h
  · -- the factor has stopped growing, so the two waits are the same
    have hsat : ∀ n, attempt + 1 ≤ n → min (2 ^ n) (2 ^ 32 - 1) = 2 ^ 32 - 1 := by
      intro n hn
      have hpow := Nat.pow_le_pow_right (by decide : 0 < 2) hn
      omega
    rw [hsat _ le_rfl, hsat _ (Nat.le_succ _)] at h
    rw [hsat _ le_rfl]
    exact flat _ _ _ _ (Nat.mul_le_mul_left _ (Nat.min_le_right _ _)) h

theorem Apart.of_le {policy : RetryPolicy} {attempt later : Nat} (h : Apart policy later)
    (hle : attempt ≤ later) : Apart policy attempt := by
  induction later, hle using Nat.le_induction with
  | base => exact h
  | succ later _ ih => exact ih h.of_succ

theorem jittered_le (policy : RetryPolicy) (attempt : Nat) (keep : Keep) :
    jittered policy attempt keep ≤ policy.backoff attempt := by
  rw [jittered]
  split_ifs
  · exact mul_le_of_le_one_right (Nat.cast_nonneg _) keep.2.2
  · exact le_rfl

theorem le_jittered (policy : RetryPolicy) (attempt : Nat) (keep : Keep) :
    4 / 5 * (policy.backoff attempt : ℚ) ≤ jittered policy attempt keep := by
  have hnonneg : (0 : ℚ) ≤ policy.backoff attempt := Nat.cast_nonneg _
  rw [jittered]
  split_ifs
  · rw [mul_comm]
    exact mul_le_mul_of_nonneg_left (le_of_lt keep.2.1) hnonneg
  · linarith

/-- Draws can put any two other waits in the wrong order. -/
theorem exists_keep {policy : RetryPolicy} {attempt : Nat} (hjitter : policy.jitter)
    (h : ¬ Apart policy attempt) :
    ∃ keep, jittered policy (attempt + 1) keep < jittered policy attempt .all := by
  have hlt : 4 * (policy.backoff (attempt + 1) : ℚ) < 5 * policy.backoff attempt := by
    exact_mod_cast not_le.mp h
  have hmono : (policy.backoff attempt : ℚ) ≤ policy.backoff (attempt + 1) := by
    exact_mod_cast backoff_mono policy attempt
  have hpos : (0 : ℚ) < policy.backoff (attempt + 1) := by
    by_contra hnot
    have hzero : (0 : ℚ) ≤ policy.backoff (attempt + 1) := Nat.cast_nonneg _
    linarith
  -- half way between the least share and the quotient of the two waits
  have hquotient : 4 / 5 < (policy.backoff attempt : ℚ) / policy.backoff (attempt + 1) := by
    rw [lt_div_iff₀ hpos]
    linarith
  have hone : (policy.backoff attempt : ℚ) / policy.backoff (attempt + 1) ≤ 1 :=
    (div_le_one hpos).mpr hmono
  refine ⟨⟨(4 / 5 + (policy.backoff attempt : ℚ) / policy.backoff (attempt + 1)) / 2,
    by linarith, by linarith⟩, ?_⟩
  have hcancel := mul_div_cancel₀ (policy.backoff attempt : ℚ) (ne_of_gt hpos)
  simp only [jittered, hjitter, if_true, Keep.all, mul_one]
  have hexpand : (policy.backoff (attempt + 1) : ℚ) *
      ((4 / 5 + (policy.backoff attempt : ℚ) / policy.backoff (attempt + 1)) / 2) =
        (4 / 5 * policy.backoff (attempt + 1) + policy.backoff attempt) / 2 := by
    field_simp
  rw [hexpand]
  linarith

def plain : Request where
  method := .get
  uri := ⟨none, some "a.example".toList, some "/".toList⟩
  version := .http11
  headers := []
  body := .empty
  options := {}
  userActivated := false

/-- An exchange that is refused each time, with no wait named. -/
def refusals (keep : Nat → Keep) (n : Nat) : Attempt := ⟨.ok ⟨503, .http11, [], some 0⟩, keep n⟩

theorem silent_refusals (keep : Nat → Keep) : Silent (refusals keep) := by
  intro n response h
  cases h
  rfl

theorem Stops.waits {policy : RetryPolicy} {request : Request} {tape : Nat → Attempt}
    {last : Nat} {run : List Call × Option Outcome} (h : Stops policy request tape 0 last run)
    (hsilent : Silent tape) :
    run.1.filterMap Call.slept =
      (List.range last).map fun n => jittered policy n (tape n).keep := by
  rw [h.sleeps]
  refine List.map_congr_left fun n _ => ?_
  rw [hsilent.again_join]
  rfl

/-- **The waits stay in order if the last two are apart**, or if there is no jitter, and for no
other policy. -/
theorem neverBackwards_iff (policy : RetryPolicy) :
    NeverBackwards policy ↔
      (policy.jitter → 2 ≤ policy.maxRetries → Apart policy (policy.maxRetries - 2)) := by
  constructor
  · intro h hjitter htwo
    by_contra hnot
    obtain ⟨keep, hlt⟩ := exists_keep hjitter hnot
    have hmay : mayReplay policy plain := by
      cases hon : policy.retryOn <;> simp [mayReplay, hon, plain, isIdempotent, Body.tryClone]
    let keeps := fun n => if n = policy.maxRetries - 2 + 1 then keep else Keep.all
    obtain ⟨last, hstops, -, hend⟩ := exchange_shape policy plain (refusals keeps)
    have hlast : last = policy.maxRetries :=
      (hend hmay).resolve_right (by simp [refusals, again, shouldRetryStatus])
    have hchain := (h plain (refusals keeps) (silent_refusals keeps)).1
    rw [hstops.waits (silent_refusals keeps), List.isChain_map, List.isChain_range] at hchain
    have hpair := hchain (policy.maxRetries - 2) (by omega)
    simp only [refusals, keeps, Nat.succ_eq_add_one, if_true] at hpair
    rw [if_neg (by omega)] at hpair
    exact absurd hlt (not_lt.mpr hpair)
  · intro h request tape hsilent
    obtain ⟨last, hstops, -, -⟩ := exchange_shape policy request tape
    have hwithin := hstops.within
    rw [hstops.waits hsilent]
    refine ⟨?_, ?_⟩
    · rw [List.isChain_map, List.isChain_range]
      intro n hn
      have hmono : (policy.backoff n : ℚ) ≤ policy.backoff (n + 1) := by
        exact_mod_cast backoff_mono policy n
      by_cases hjitter : policy.jitter
      · have hapart : Apart policy n := (h hjitter (by omega)).of_le (by omega)
        have hcast : 5 * (policy.backoff n : ℚ) ≤ 4 * policy.backoff (n + 1) := by
          exact_mod_cast hapart
        have hupper := jittered_le policy n (tape n).keep
        have hlower := le_jittered policy (n + 1) (tape (n + 1)).keep
        show jittered policy n _ ≤ jittered policy (n + 1) _
        linarith
      · simpa [jittered, hjitter] using hmono
    · intro wait hwait
      obtain ⟨n, -, rfl⟩ := List.mem_map.mp hwait
      have hceiling : (policy.backoff n : ℚ) ≤ policy.maxDelay := by
        exact_mod_cast backoff_le policy n
      exact (jittered_le policy n _).trans hceiling

theorem neverBackwards_default : NeverBackwards .default :=
  (neverBackwards_iff .default).mpr fun _ _ => by rw [Apart]; decide

/-- Two retries a second apart, which is also the longest wait. -/
def level : RetryPolicy where
  maxRetries := 2
  baseDelay := Duration.fromSecs 1
  maxDelay := Duration.fromSecs 1
  retryOn := .idempotentMethods
  jitter := true
  honourRetryAfter := true
  maxDelay_le := by decide

theorem keep_most : 4 / 5 < (9 / 10 : ℚ) ∧ (9 / 10 : ℚ) ≤ 1 := by norm_num

/-- The second wait of `level` may be the shorter one. -/
theorem level_goes_back : 0 < level.baseDelay ∧ ¬ NeverBackwards level := by
  refine ⟨by decide, fun h => ?_⟩
  let keeps := fun n => if n = 1 then ⟨9 / 10, keep_most⟩ else Keep.all
  have hwaits : (exchange level plain (refusals keeps)).1.filterMap Call.slept =
      [1000000000, 900000000] := by decide +kernel
  have hchain := (h plain (refusals keeps) (silent_refusals keeps)).1
  rw [hwaits] at hchain
  norm_num at hchain

/-! ## The promises -/

/-- A status or an error that is worth another attempt. -/
def Retryable : Outcome → Prop
  | .ok response => shouldRetryStatus response.status
  | .error error => error.isRetryable

/-- An outcome carries a `Retry-After` in seconds. -/
def Names (outcome : Outcome) (digits : Str) : Prop :=
  ∃ response value, outcome = .ok response ∧ response.headers.get .retryAfter = some value ∧
    value.toStr = some digits ∧ isDigits digits

/-- What the loop promises of a run. -/
structure Retries (policy : RetryPolicy) (request : Request) (tape : Nat → Attempt) : Prop where
  called : 1 ≤ (exchange policy request tape).1.length
  bounded : (exchange policy request tape).1.length ≤ policy.maxRetries + 1
  once : mayReplay policy request = false → (exchange policy request tape).1.length = 1
  same : ∀ call ∈ (exchange policy request tape).1, call.request = request
  met : ∀ n call, (exchange policy request tape).1[n]? = some call →
    call.outcome = (tape n).outcome
  waits : ∀ n call, (exchange policy request tape).1[n]? = some call →
    n + 1 < (exchange policy request tape).1.length →
      Retryable call.outcome ∧ ∃ slept : ℚ, call.slept = some slept ∧ slept ≤ policy.maxDelay ∧
        4 / 5 * (policy.backoff n : ℚ) ≤ slept ∧
        ∀ digits, policy.honourRetryAfter → Names call.outcome digits →
          (min (Duration.fromSecs (digitsValue digits)) policy.maxDelay : ℕ) ≤ slept
  returned : (exchange policy request tape).2 =
    (exchange policy request tape).1.getLast?.map Call.outcome

theorem retryable_of_again {outcome : Outcome} (h : (again outcome).isSome) :
    Retryable outcome := by
  cases outcome with
  | ok response =>
    by_cases hstatus : shouldRetryStatus response.status
    · exact hstatus
    · simp [again, hstatus] at h
  | error error =>
    by_cases herror : error.isRetryable
    · exact herror
    · simp [again, herror] at h

/-- Digits name a wait as long as they fit sixty-four bits. -/
theorem again_of_names {outcome : Outcome} {digits : Str} (h : Names outcome digits)
    (hagain : (again outcome).isSome) :
    (again outcome).join =
      if digitsValue digits < 2 ^ 64 then
        some (Duration.fromSecs (digitsValue digits))
      else none := by
  obtain ⟨response, value, rfl, hget, htext, hdigits⟩ := h
  have hstatus : shouldRetryStatus response.status := retryable_of_again hagain
  simp only [again, hstatus, if_true, Option.join_some, hget, parseRetryAfter, htext,
    Option.bind_eq_bind, Option.bind_some, trim_digits hdigits,
    parseUnsigned_of_isDigits hdigits]
  by_cases hfits : digitsValue digits < 2 ^ 64
  · rw [if_pos (by omega), if_pos hfits, Option.bind_some]
  · rw [if_neg (by omega), if_neg hfits, Option.bind_none]

section Delay

variable (policy : RetryPolicy) (attempt : Nat) (keep : Keep) (retryAfter : Option Duration)

theorem jittered_le_maxDelay : jittered policy attempt keep ≤ policy.maxDelay :=
  (jittered_le policy attempt keep).trans (by exact_mod_cast backoff_le policy attempt)

theorem delay_le : delay policy attempt keep retryAfter ≤ policy.maxDelay := by
  have hjittered := jittered_le_maxDelay policy attempt keep
  cases retryAfter with
  | none => exact hjittered
  | some after =>
    rw [delay]
    split_ifs
    · exact min_le_right _ _
    · exact hjittered

theorem jittered_le_delay :
    jittered policy attempt keep ≤ delay policy attempt keep retryAfter := by
  cases retryAfter with
  | none => exact le_rfl
  | some after =>
    rw [delay]
    split_ifs
    · exact le_min (le_max_left _ _) (jittered_le_maxDelay policy attempt keep)
    · exact le_rfl

end Delay

/-- A wait that is named and honoured is kept, up to the ceiling. -/
theorem min_le_delay {policy : RetryPolicy} (hhonour : policy.honourRetryAfter) (attempt : Nat)
    (keep : Keep) (after : Duration) :
    ((min after policy.maxDelay : ℕ) : ℚ) ≤ delay policy attempt keep (some after) := by
  rw [delay, if_pos hhonour, Nat.cast_min]
  exact min_le_min (le_max_right _ _) le_rfl

/-- What is too long for sixty-four bits of seconds is longer than any ceiling. -/
theorem maxDelay_le_fromSecs (policy : RetryPolicy) {seconds : Nat} (h : 2 ^ 64 ≤ seconds) :
    policy.maxDelay ≤ Duration.fromSecs seconds := by
  have hsecs : 2 ^ 64 * SystemTime.nanosPerSec ≤ Duration.fromSecs seconds :=
    Nat.mul_le_mul_right _ h
  exact (policy.maxDelay_le.trans (Nat.sub_le _ _)).trans hsecs

/-- **The loop keeps its promises** unless an outcome names a wait of 2^64 seconds or more that is
to be honoured, and the wait without it falls short of the ceiling. -/
theorem retries_iff (policy : RetryPolicy) (request : Request) (tape : Nat → Attempt) :
    Retries policy request tape ↔
      ∀ n digits, n + 1 < (exchange policy request tape).1.length → policy.honourRetryAfter →
        Names (tape n).outcome digits →
          digitsValue digits < 2 ^ 64 ∨
            policy.maxDelay ≤ jittered policy n (tape n).keep := by
  obtain ⟨last, hstops, honce, -⟩ := exchange_shape policy request tape
  have hlength := hstops.length
  constructor
  · intro h n digits hn hhonour hnames
    by_cases hfits : digitsValue digits < 2 ^ 64
    · exact Or.inl hfits
    · right
      have hcall := hstops.getElem? (n := n) (by omega)
      obtain ⟨-, slept, hslept, -, -, hnamed⟩ := h.waits n _ hcall hn
      have hwait := hnamed digits hhonour hnames
      rw [retried, again_of_names hnames (hstops.retries n (Nat.zero_le _) (by omega)),
        if_neg hfits] at hslept
      rw [← Option.some.inj hslept,
        Nat.min_eq_right (maxDelay_le_fromSecs policy (not_lt.mp hfits))] at hwait
      exact hwait
  · intro h
    exact {
      called := by omega
      bounded := by have := hstops.within; omega
      once := fun hnot => by rw [hlength, honce hnot]
      same := by
        intro call hcall
        rw [hstops.calls, List.mem_append, List.mem_map, List.mem_singleton] at hcall
        rcases hcall with ⟨n, -, rfl⟩ | rfl <;> rfl
      met := by
        intro n call hcall
        by_cases hn : n < last
        · rw [hstops.getElem? hn] at hcall
          cases hcall
          rfl
        · have hlt := (List.getElem?_eq_some_iff.mp hcall).1
          have heq : n = last := by omega
          rw [hstops.calls, List.getElem?_append_right (by simpa using hn)] at hcall
          simp [heq] at hcall
          rw [← hcall, heq]
      waits := by
        intro n call hcall hn
        have hretries := hstops.retries n (Nat.zero_le _) (by omega)
        rw [hstops.getElem? (by omega)] at hcall
        cases hcall
        refine ⟨retryable_of_again hretries, _, rfl, delay_le _ _ _ _,
          (le_jittered _ _ _).trans (jittered_le_delay _ _ _ _), ?_⟩
        intro digits hhonour (hnames : Names (tape n).outcome digits)
        rw [again_of_names hnames hretries]
        split_ifs with hfits
        · exact min_le_delay hhonour _ _ _
        · have hceiling := (h n digits hn hhonour hnames).resolve_left hfits
          rw [Nat.min_eq_right (maxDelay_le_fromSecs policy (not_lt.mp hfits))]
          exact hceiling
      returned := by rw [hstops.returned, hstops.calls, List.getLast?_concat]; rfl }

/-- An exchange that is refused each time, with a wait. -/
def announced (seconds : String) (_ : Nat) : Attempt :=
  ⟨.ok ⟨503, .http11, [(.retryAfter, .fromStatic seconds)], some 0⟩, .all⟩

theorem toStr_announced {seconds : String} {n : Nat} {digits : Str}
    (h : Names (announced seconds n).outcome digits) :
    (HeaderValue.fromStatic seconds).toStr = some digits := by
  obtain ⟨response, value, houtcome, hget, htext, -⟩ := h
  cases houtcome
  cases hget
  exact htext

theorem retries_three_seconds : Retries .default plain (announced "3") :=
  (retries_iff .default plain (announced "3")).mpr fun n digits _ _ hnames => by
    have hdigits : digits = "3".toList :=
      Option.some.inj ((toStr_announced hnames).symm.trans (by decide))
    rw [hdigits]
    exact Or.inl (by decide)

/-- 2^64 seconds are waited for a quarter of one. -/
theorem endless_wait_ignored :
    ¬ Retries .default plain (announced "18446744073709551616") := by
  intro h
  have hfirst : (exchange .default plain (announced "18446744073709551616")).1[0]?.bind
      Call.slept = some 250000000 := by decide +kernel
  obtain ⟨call, hcall, hquarter⟩ := Option.bind_eq_some_iff.mp hfirst
  obtain ⟨-, slept, hslept, -, -, hnamed⟩ := h.waits 0 call hcall (by decide +kernel)
  rw [hquarter] at hslept
  cases hslept
  rw [h.met 0 call hcall] at hnamed
  have hwait := hnamed "18446744073709551616".toList rfl
    ⟨_, .fromStatic "18446744073709551616", rfl, rfl, by decide +kernel, by decide +kernel⟩
  rw [show min (Duration.fromSecs (digitsValue "18446744073709551616".toList))
    RetryPolicy.default.maxDelay = 10000000000 by decide +kernel] at hwait
  norm_num at hwait

end Chromulate.Http.Retry
