import Mathlib.Data.List.Basic

/-!
# Reading until the input is used up

A loop `while !input.is_empty()` whose rounds each take one item off the front. `Takes` says what
a round does in terms of the items: it succeeds exactly when the input starts with one. Then the
loop succeeds exactly when the whole input is a sequence of items (`drain_eq_ok`), whatever the
number of ways to write an item, and it comes to an end (`drain_ne_unfinished`), since an item is
never empty.
-/

namespace Chromulate.Drain

/-- Why a reader stops short: it refuses the input, or it has used up the rounds it was given. -/
inductive Stop (ε : Type*) where
  | failed (error : ε)
  | unfinished
  deriving DecidableEq

variable {ε σ β ι : Type*}

/-- A computation succeeds when its first part does and then the rest of it. -/
theorem bind_eq_ok {α γ : Type} {x : Except ε α} {f : α → Except ε γ} {c : γ} :
    x >>= f = .ok c ↔ ∃ a, x = .ok a ∧ f a = .ok c := by
  cases x with
  | error e => simp [bind, Except.bind]
  | ok a => simp [bind, Except.bind]

/-- `while !input.is_empty()`, with a bound on the rounds. -/
def drain (round : σ → List β → Except (Stop ε) (σ × List β)) :
    Nat → σ → List β → Except (Stop ε) σ
  | _, s, [] => .ok s
  | 0, _, _ :: _ => .error .unfinished
  | rounds + 1, s, b :: input =>
    match round s (b :: input) with
    | .error stop => .error stop
    | .ok (t, rest) => drain round rounds t rest

/-- A round takes exactly one item off the front, and acts on the state as the item says. -/
structure Takes (round : σ → List β → Except (Stop ε) (σ × List β)) (act : σ → ι → σ)
    (bytes : ι → List β) : Prop where
  ok_iff : ∀ s input t rest, round s input = .ok (t, rest) ↔
    ∃ item, t = act s item ∧ input = bytes item ++ rest
  ne_nil : ∀ item, bytes item ≠ []

variable {round : σ → List β → Except (Stop ε) (σ × List β)} {act : σ → ι → σ}
  {bytes : ι → List β} {rounds : Nat} {s t : σ} {input rest : List β}

theorem Takes.length_lt (h : Takes round act bytes) (hround : round s input = .ok (t, rest)) :
    rest.length < input.length := by
  obtain ⟨item, -, rfl⟩ := (h.ok_iff s input t rest).mp hround
  have hpos := List.length_pos_iff.mpr (h.ne_nil item)
  rw [List.length_append]
  omega

theorem drain_of_ok (hround : round s input = .ok (t, rest)) (hne : input ≠ []) :
    drain round (rounds + 1) s input = drain round rounds t rest := by
  cases input with
  | nil => exact absurd rfl hne
  | cons b input => simp [drain, hround]

theorem drain_flatMap (h : Takes round act bytes) (items : List ι)
    (hrounds : (items.flatMap bytes).length ≤ rounds) :
    drain round rounds s (items.flatMap bytes) = .ok (items.foldl act s) := by
  induction items generalizing s rounds with
  | nil => simp [drain]
  | cons item items ih =>
    have hround := (h.ok_iff s (bytes item ++ items.flatMap bytes) _ _).mpr ⟨item, rfl, rfl⟩
    have hne := h.ne_nil item
    rw [List.flatMap_cons] at hrounds ⊢
    cases rounds with
    | zero => simp [hne] at hrounds
    | succ rounds =>
      have hlt := h.length_lt hround
      rw [drain_of_ok hround (by simp [hne])]
      exact ih (by omega)

/-- **The loop accepts the sequences of items** and nothing else. -/
theorem drain_eq_ok (h : Takes round act bytes) (hrounds : input.length ≤ rounds) :
    drain round rounds s input = .ok t ↔
      ∃ items : List ι, t = items.foldl act s ∧ input = items.flatMap bytes := by
  constructor
  · intro hdrain
    clear hrounds
    induction rounds generalizing s input with
    | zero =>
      cases input with
      | nil =>
        cases hdrain
        exact ⟨[], rfl, rfl⟩
      | cons b input => cases hdrain
    | succ rounds ih =>
      cases input with
      | nil =>
        cases hdrain
        exact ⟨[], rfl, rfl⟩
      | cons b input =>
        rw [drain] at hdrain
        cases hround : round s (b :: input) with
        | error stop =>
          rw [hround] at hdrain
          cases hdrain
        | ok next =>
          rw [hround] at hdrain
          obtain ⟨item, hact, hinput⟩ := (h.ok_iff _ _ next.1 next.2).mp hround
          obtain ⟨items, hitems, hrest⟩ := ih hdrain
          exact ⟨item :: items, by rw [hitems, hact]; rfl, by rw [hinput, hrest]; rfl⟩
  · rintro ⟨items, rfl, rfl⟩
    exact drain_flatMap h items hrounds

theorem Takes.bytes_eq (h : Takes round act bytes) (s : σ) {item other : ι}
    (heq : bytes item ++ input = bytes other ++ rest) :
    bytes item = bytes other ∧ input = rest := by
  have hitem := (h.ok_iff s (bytes item ++ input) _ _).mpr ⟨item, rfl, rfl⟩
  have hother := (h.ok_iff s (bytes other ++ rest) _ _).mpr ⟨other, rfl, rfl⟩
  rw [heq, hother] at hitem
  have hrest : rest = input := (Prod.mk.inj (Except.ok.inj hitem)).2
  subst hrest
  exact ⟨List.append_cancel_right heq, rfl⟩

theorem Takes.exists_take (h : Takes round act bytes) (s : σ) {items others : List ι}
    {back : List β} (heq : others.flatMap bytes ++ back = items.flatMap bytes) :
    ∃ k, others.flatMap bytes = (items.take k).flatMap bytes := by
  induction others generalizing items with
  | nil => exact ⟨0, by simp⟩
  | cons other others ih =>
    rw [List.flatMap_cons, List.append_assoc] at heq
    cases items with
    | nil => exact absurd (List.append_eq_nil_iff.mp heq).1 (h.ne_nil other)
    | cons item items =>
      rw [List.flatMap_cons] at heq
      obtain ⟨hfirst, hrest⟩ := h.bytes_eq s heq
      obtain ⟨k, hk⟩ := ih hrest
      exact ⟨k + 1, by rw [List.flatMap_cons, List.take_succ_cons, List.flatMap_cons, hfirst, hk]⟩

/-- **The loop ends**, when each round does. -/
theorem drain_ne_unfinished (h : Takes round act bytes)
    (hround : ∀ s input, round s input ≠ .error .unfinished) (hrounds : input.length ≤ rounds) :
    drain round rounds s input ≠ .error .unfinished := by
  induction rounds generalizing s input with
  | zero =>
    have hnil : input = [] := List.length_eq_zero_iff.mp (by omega)
    simp [hnil, drain]
  | succ rounds ih =>
    cases input with
    | nil => simp [drain]
    | cons b input =>
      rw [drain]
      cases hnext : round s (b :: input) with
      | error stop =>
        intro hstop
        cases hstop
        exact hround _ _ hnext
      | ok next =>
        have hlt := h.length_lt hnext
        exact ih (by omega)

theorem foldl_collect {α : Type*} (view : ι → α) (out : List α) (items : List ι) :
    items.foldl (fun out item => out ++ [view item]) out = out ++ items.map view := by
  induction items generalizing out with
  | nil => simp
  | cons item items ih => simp [ih]

end Chromulate.Drain
