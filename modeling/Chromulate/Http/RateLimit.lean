import Chromulate.Lib.Rational
import Mathlib.Tactic.FieldSimp
import Mathlib.Tactic.Ring

/-!
# The rate limiter

The token bucket of `chromulate-http/src/middleware/rate_limit.rs`, over exact rationals. A caller
reads the clock, and then takes the lock in which the whole decision is made; between the two
others may come in, so that the lock sees readings in any order.

A bucket has an instant at which its debt is paid, `Bucket.due`. When the readings come in order,
each request moves it on by at least the time of one token and is released at it or, with tokens
banked, not long after it. A reading that is older than the last refill turns `last_refill` back,
and the time in between is refilled twice (`late_reading_refills_twice`).

**Theorem (`ceiling_holds`).** When no caller brings a reading older than the last refill, and no
wait is too long for a `Duration`, then at most `max(burst, 1) + rate * T` requests are released
in any window of length `T`.
-/

namespace Chromulate.Http

/-- `RateLimit`, as a caller writes it. -/
structure RateLimit where
  perSecond : F64
  burst : F64

namespace RateLimit

/-- `SLOWEST`: one request per hour. -/
def slowest : ℚ := 1 / 3600

/-- A limit that can describe a rate. -/
structure Sane where
  perSecond : ℚ
  burst : ℚ
  perSecond_ge : slowest ≤ perSecond
  burst_nonneg : 0 ≤ burst

def sanitise (limit : RateLimit) : Sane where
  perSecond := match limit.perSecond with
    | .finite rate => if slowest ≤ rate then rate else slowest
    | .nonFinite => slowest
  burst := match limit.burst with
    | .finite burst => if 0 ≤ burst then burst else 0
    | .nonFinite => 0
  perSecond_ge := by
    split
    · split
      · assumption
      · exact le_refl _
    · exact le_refl _
  burst_nonneg := by
    split
    · split
      · assumption
      · exact le_refl _
    · exact le_refl _

theorem Sane.perSecond_pos (limit : Sane) : 0 < limit.perSecond :=
  lt_of_lt_of_le (by norm_num [slowest]) limit.perSecond_ge

end RateLimit

open RateLimit

/-- `Bucket`, with instants in seconds. -/
structure Bucket where
  tokens : ℚ
  lastRefill : ℚ
  deriving DecidableEq

namespace Bucket

/-- `MAX_WAIT`, in seconds. -/
def maxWait : ℚ := 3600

/-- What a `Duration` can hold, in seconds. -/
def durationBound : ℚ := 2 ^ 64

/-- The bucket after the refill and the spending of one token. -/
def spend (limit : Sane) (bucket : Bucket) (now : ℚ) : Bucket :=
  let elapsed := max (now - bucket.lastRefill) 0
  let tokens := min (bucket.tokens + elapsed * limit.perSecond) limit.burst
  ⟨tokens - 1, now⟩

/-- The seconds until a debt is paid. -/
def seconds (limit : Sane) (bucket : Bucket) : ℚ := -bucket.tokens / limit.perSecond

/-- `RateLimiter::reserve`, inside the lock: the wait, and the bucket it leaves. -/
def reserve (limit : Sane) (bucket : Bucket) (now : ℚ) : ℚ × Bucket :=
  let bucket := bucket.spend limit now
  if 0 ≤ bucket.tokens then (0, bucket)
  else if bucket.seconds limit < durationBound then (bucket.seconds limit, bucket)
  else (maxWait, bucket)

/-- The instant at which a bucket is even. -/
def due (limit : Sane) (bucket : Bucket) : ℚ :=
  bucket.lastRefill - bucket.tokens / limit.perSecond

/-- How far behind `due` a release may be: the time of the tokens banked beyond the one spent. -/
def slack (limit : Sane) : ℚ := max (limit.burst - 1) 0 / limit.perSecond

variable {limit : Sane} {bucket : Bucket} {now : ℚ}

theorem due_spend_ge (horder : bucket.lastRefill ≤ now) :
    bucket.due limit + 1 / limit.perSecond ≤ (bucket.spend limit now).due limit := by
  have hpos := limit.perSecond_pos
  have htokens : (bucket.spend limit now).tokens ≤
      bucket.tokens + (now - bucket.lastRefill) * limit.perSecond - 1 := by
    have hmin := min_le_left (bucket.tokens + max (now - bucket.lastRefill) 0 * limit.perSecond)
      limit.burst
    rw [max_eq_left (sub_nonneg.mpr horder)] at hmin
    unfold spend
    simp only [max_eq_left (sub_nonneg.mpr horder)]
    linarith
  have hdiv := div_le_div_of_nonneg_right htokens (le_of_lt hpos)
  have heq : (bucket.tokens + (now - bucket.lastRefill) * limit.perSecond - 1) / limit.perSecond =
      bucket.tokens / limit.perSecond + (now - bucket.lastRefill) - 1 / limit.perSecond := by
    field_simp
  have hnow : (bucket.spend limit now).lastRefill = now := rfl
  unfold due
  rw [hnow]
  linarith

theorem now_le_due_spend : now ≤ (bucket.spend limit now).due limit + slack limit := by
  have hpos := limit.perSecond_pos
  have htokens : (bucket.spend limit now).tokens ≤ max (limit.burst - 1) 0 := by
    refine le_trans ?_ (le_max_left _ _)
    exact sub_le_sub_right (min_le_right _ _) 1
  have hdiv := div_le_div_of_nonneg_right htokens (le_of_lt hpos)
  have hnow : (bucket.spend limit now).lastRefill = now := rfl
  unfold due slack
  rw [hnow]
  linarith

theorem slack_nonneg (limit : Sane) : 0 ≤ slack limit :=
  div_nonneg (le_max_right _ _) (le_of_lt limit.perSecond_pos)

/-- **A request is released when its token is due, or within the slack after that.** -/
theorem release_between (hwait : (bucket.spend limit now).seconds limit < durationBound) :
    (bucket.spend limit now).due limit ≤ now + (bucket.reserve limit now).1 ∧
      now + (bucket.reserve limit now).1 ≤ (bucket.spend limit now).due limit + slack limit := by
  have hpos := limit.perSecond_pos
  have hslack := slack_nonneg limit
  have hdue : (bucket.spend limit now).due limit =
      now + (bucket.spend limit now).seconds limit := by
    have hnow : (bucket.spend limit now).lastRefill = now := rfl
    unfold due seconds
    rw [hnow, neg_div, sub_eq_add_neg]
  unfold reserve
  simp only [hwait, if_true]
  split
  · rename_i htokens
    have hseconds : (bucket.spend limit now).seconds limit ≤ 0 :=
      div_nonpos_of_nonpos_of_nonneg (neg_nonpos.mpr htokens) (le_of_lt hpos)
    have hnow : now ≤ (bucket.spend limit now).due limit + slack limit := now_le_due_spend
    exact ⟨by linarith, by linarith⟩
  · exact ⟨by linarith, by linarith⟩

end Bucket

/-! ## Callers -/

/-- A limiter, its clock and its callers. -/
structure Limiter where
  bucket : Bucket
  now : ℚ
  /-- What each caller read; nothing any more once it has been through the lock. -/
  readings : List (Option ℚ)
  /-- The release times, in the order of the lock: a caller's own reading and its wait. -/
  releases : List ℚ

namespace Limiter

/-- What can happen next. A caller is named by its position. -/
inductive Move where
  /-- A caller reads the clock. -/
  | read
  /-- A caller goes through the lock. -/
  | enter (i : Nat)
  /-- Time passes. -/
  | advance (span : ℚ)

/-- `RateLimiter::with_time_source`: a full bucket. -/
def new (limit : Sane) (start : ℚ) : Limiter where
  bucket := ⟨limit.burst, start⟩
  now := start
  readings := []
  releases := []

def step (limit : Sane) (w : Limiter) : Move → Limiter
  | .read => { w with readings := w.readings ++ [some w.now] }
  | .enter i =>
    match w.readings[i]? with
    | some (some now) =>
      let (wait, bucket) := w.bucket.reserve limit now
      { w with
        bucket := bucket
        readings := w.readings.set i none
        releases := w.releases ++ [now + wait] }
    | _ => w
  | .advance span => { w with now := w.now + max span 0 }

def run (limit : Sane) (w : Limiter) (moves : List Move) : Limiter := moves.foldl (step limit) w

/-- The requests released in a window. -/
def releasedIn (w : Limiter) (start length : ℚ) : Nat :=
  w.releases.countP fun release => start ≤ release ∧ release ≤ start + length

/-- Whoever enters the lock brings a reading that is not older than the last refill, and its wait
fits a `Duration`. -/
def orderly (limit : Sane) (w : Limiter) : Move → Bool
  | .enter i =>
    match w.readings[i]? with
    | some (some now) =>
      w.bucket.lastRefill ≤ now &&
        (w.bucket.spend limit now).seconds limit < Bucket.durationBound
    | _ => true
  | _ => true

def runOrderly (limit : Sane) (w : Limiter) : List Move → Bool
  | [] => true
  | move :: moves => w.orderly limit move && runOrderly limit (w.step limit move) moves

variable {limit : Sane} {w : Limiter}

/-- The releases lag behind instants that keep the time of a token between them, the last of which
is when the bucket is even. -/
def Paced (limit : Sane) (w : Limiter) : Prop :=
  ∃ dues, Spacing.Apart (1 / limit.perSecond) dues ∧ (∀ due ∈ dues, due ≤ w.bucket.due limit) ∧
    List.Forall₂ (fun due release => due ≤ release ∧ release ≤ due + Bucket.slack limit) dues
      w.releases

theorem reserve_snd (limit : Sane) (bucket : Bucket) (now : ℚ) :
    (bucket.reserve limit now).2 = bucket.spend limit now := by
  unfold Bucket.reserve
  simp only
  split_ifs <;> rfl

theorem Paced.reserve {now : ℚ} {readings : List (Option ℚ)} (h : w.Paced limit)
    (horder : w.bucket.lastRefill ≤ now)
    (hwait : (w.bucket.spend limit now).seconds limit < Bucket.durationBound) :
    Paced limit { w with
      bucket := (w.bucket.reserve limit now).2
      readings := readings
      releases := w.releases ++ [now + (w.bucket.reserve limit now).1] } := by
  obtain ⟨dues, hapart, hlast, hreleases⟩ := h
  have hnext : w.bucket.due limit + 1 / limit.perSecond ≤ (w.bucket.spend limit now).due limit :=
    Bucket.due_spend_ge horder
  have hpos : 0 < 1 / limit.perSecond := one_div_pos.mpr limit.perSecond_pos
  refine ⟨dues ++ [(w.bucket.spend limit now).due limit], ?_, ?_, ?_⟩
  · refine List.pairwise_append.mpr ⟨hapart, List.pairwise_singleton _ _, ?_⟩
    intro due hdue next hmem
    rw [List.mem_singleton.mp hmem]
    have hle := hlast due hdue
    linarith
  · intro due hdue
    rw [reserve_snd]
    rcases List.mem_append.mp hdue with hdue | hdue
    · have hle := hlast due hdue
      linarith
    · rw [List.mem_singleton.mp hdue]
  · exact List.rel_append hreleases
      (List.Forall₂.cons (Bucket.release_between hwait) List.Forall₂.nil)

/-- **One move keeps the pace.** -/
theorem Paced.step {move : Move} (h : w.Paced limit) (horderly : w.orderly limit move) :
    (w.step limit move).Paced limit := by
  cases move with
  | read => exact h
  | advance span => exact h
  | enter i =>
    cases hreading : w.readings[i]? with
    | none =>
      simp only [Limiter.step, hreading]
      exact h
    | some reading =>
      cases reading with
      | none =>
        simp only [Limiter.step, hreading]
        exact h
      | some now =>
        simp only [orderly, hreading, Bool.and_eq_true, decide_eq_true_eq] at horderly
        simp only [Limiter.step, hreading]
        exact h.reserve horderly.1 horderly.2

theorem Paced.run {moves : List Move} (h : w.Paced limit)
    (horderly : runOrderly limit w moves) : (w.run limit moves).Paced limit := by
  induction moves generalizing w with
  | nil => exact h
  | cons move moves ih =>
    rw [runOrderly, Bool.and_eq_true] at horderly
    exact ih (h.step horderly.1) horderly.2

theorem Paced.releasedIn_le (h : w.Paced limit) (start : ℚ) {length : ℚ} (hlength : 0 ≤ length) :
    (w.releasedIn start length : ℚ) ≤ max limit.burst 1 + limit.perSecond * length := by
  obtain ⟨dues, hapart, -, hreleases⟩ := h
  have hpos := limit.perSecond_pos
  have hcount := hapart.countP_lagging_le (one_div_pos.mpr hpos) (Bucket.slack_nonneg limit)
    hreleases (show start ≤ start + length by linarith)
  have hmul := mul_le_mul_of_nonneg_right hcount (le_of_lt hpos)
  have hleft : (w.releasedIn start length : ℚ) * (1 / limit.perSecond) * limit.perSecond =
      w.releasedIn start length := by
    field_simp
  have hright : (start + length - start + Bucket.slack limit + 1 / limit.perSecond) *
      limit.perSecond = limit.perSecond * length + max (limit.burst - 1) 0 + 1 := by
    unfold Bucket.slack
    field_simp
    ring
  have hmax : max (limit.burst - 1) 0 + 1 = max limit.burst 1 := by
    rw [← max_add_add_right]
    ring_nf
  unfold releasedIn at hleft ⊢
  linarith

/-- **The rate ceiling holds** in every run whose callers enter the lock in order. -/
theorem ceiling_holds (raw : RateLimit) (begin : ℚ) (moves : List Move) :
    let limit := raw.sanitise
    runOrderly limit (new limit begin) moves →
      ∀ start length : ℚ, 0 ≤ length →
        (((new limit begin).run limit moves).releasedIn start length : ℚ) ≤
          max limit.burst 1 + limit.perSecond * length := by
  intro limit horderly start length hlength
  have hnew : (new limit begin).Paced limit :=
    ⟨[], List.Pairwise.nil, fun _ h => (List.not_mem_nil h).elim, List.Forall₂.nil⟩
  exact (hnew.run horderly).releasedIn_le start hlength

/-- One request per second, and one banked. -/
def metronome : RateLimit := ⟨.finite 1, .finite 1⟩

/-- Three callers in order: one at once, one after a second, one after two. -/
theorem three_in_order :
    let limit := metronome.sanitise
    let moves := [.read, .read, .enter 0, .enter 1, .advance 1, .read, .enter 2]
    let w := (new limit 0).run limit moves
    w.releases = [0, 1, 2] ∧ (w.releasedIn 0 1 : ℚ) ≤ max limit.burst 1 + limit.perSecond * 1 := by
  intro limit moves w
  refine ⟨by decide +kernel, ceiling_holds metronome 0 moves (by decide +kernel) 0 1 (by decide)⟩

/-- Two callers read the clock and come to the lock ten seconds late, each between two others:
what was refilled for the one before is refilled again for the one after, and three are released
at the same instant. -/
theorem late_reading_refills_twice :
    let limit := metronome.sanitise
    let moves := [.read, .read, .advance 10, .read, .read, .read, .enter 2, .enter 0, .enter 3,
      .enter 1, .enter 4]
    let w := (new limit 0).run limit moves
    w.releases = [10, 1, 10, 1, 10] ∧
      max limit.burst 1 + limit.perSecond * 1 < (w.releasedIn 10 1 : ℚ) := by
  decide +kernel

end Limiter

end Chromulate.Http
