import Chromulate.Proxy.Provider
import Chromulate.Proxy.Url

/-!
# Rotation strategies

`ProxyProvider` as the engine sees it, and the three providers of
`chromulate-proxy/src/provider.rs` behind it. Each answers with a member of its pool or with
nothing. While it is asked only when some member has not been reported, and a `RoundRobin` only by
one call at a time, it answers with a member (`steady_answers`).
-/

namespace Chromulate.Proxy

/-- `dyn ProxyProvider`. -/
structure Provider (α : Type) where
  State : Type
  Point : Type
  Input : Type
  Answer : Type
  next : Calls.Method State Point Unit Input Answer
  reportFailure : State → α → State
  /-- The proxy an answer is, if any. -/
  proxy : Answer → Option α

variable {α : Type}

/-! ## `Single` -/

structure Single (α : Type) where
  proxy : α
  failed : Bool

def Single.next : Calls.Method (Single α) Unit Unit Unit (Option α) where
  enter _ _ := .inl ()
  step single _ _ := (single, .inr (if single.failed then none else some single.proxy))

/-- `Single::report_failure`, which does not look at what failed. -/
def Single.reportFailure (single : Single α) (_ : α) : Single α := { single with failed := true }

/-! ## `Random` -/

/-- A call of `Random::next` under way: the flag to read next and the members found so far. -/
structure Drawing where
  index : Nat
  available : List Nat

/-- `Random::next`. The last step draws. -/
def Random.next : Calls.Method (Members α) Drawing Unit Nat (Option α) where
  enter _ _ := .inl ⟨0, []⟩
  step members call pick :=
    if call.index < members.pool.length then
      (members, .inl
        { index := call.index + 1
          available := if members.isFailed call.index then call.available
            else call.available ++ [call.index] })
    else
      (members, .inr
        ((call.available[pick % call.available.length]?).bind fun i => members.pool[i]?))

/-! ## All three -/

/-- Which provider, over which pool. -/
inductive Strategy (α : Type) where
  | single (proxy : α)
  | roundRobin (bits : Nat) (cursor : BitVec bits) (pool : List α)
  | random (pool : List α)

namespace Strategy

/-- The pool. -/
def members : Strategy α → List α
  | .single proxy => [proxy]
  | .roundRobin _ _ pool => pool
  | .random pool => pool

variable [DecidableEq α]

def provider : Strategy α → Provider α
  | .single _ => ⟨_, _, _, _, Single.next, Single.reportFailure, id⟩
  | .roundRobin bits _ _ =>
    ⟨RoundRobin α bits, _, _, _, RoundRobin.next, RoundRobin.reportFailure, Outcome.proxy⟩
  | .random _ => ⟨_, _, _, _, Random.next, Members.reportFailure, id⟩

def start : (strategy : Strategy α) → strategy.provider.State
  | .single proxy => (⟨proxy, false⟩ : Single α)
  | .roundRobin _ cursor pool => RoundRobin.start pool cursor
  | .random pool => Members.new pool

/-- Some member has not been marked. -/
def spares : (strategy : Strategy α) → strategy.provider.State → Bool
  | .single _, only => !Single.failed only
  | .roundRobin _ _ _, robin => Members.spares (RoundRobin.members robin)
  | .random _, members => Members.spares members

/-- The provider and its calls. -/
abbrev World (strategy : Strategy α) :=
  Calls.World strategy.provider.State strategy.provider.Point strategy.provider.Answer

/-- A provider nobody has called yet. -/
def world (strategy : Strategy α) : strategy.World := ⟨strategy.start, []⟩

/-- A move that disturbs no other call. -/
def alone : (strategy : Strategy α) → strategy.World →
    Calls.Move Unit strategy.provider.Input α → Bool
  | .single _, _, _ => true
  | .roundRobin _ _ _, w, m => RoundRobin.undisturbed w m
  | .random _, _, _ => true

/-- A move that steps no call, or one that steps a call while some member is left. -/
def steady (strategy : Strategy α) (w : strategy.World) :
    Calls.Move Unit strategy.provider.Input α → Bool
  | .step i input =>
    !(w.calls[i]?).any Sum.isLeft || strategy.spares w.shared && strategy.alone w (.step i input)
  | _ => true

variable {i : Nat}

/-- What a steady step of a call may take for granted. -/
theorem steady_step {strategy : Strategy α} {w : strategy.World} {point : strategy.provider.Point}
    {input : strategy.provider.Input} (hcall : w.calls[i]? = some (.inl point))
    (h : strategy.steady w (.step i input)) :
    strategy.spares w.shared ∧ strategy.alone w (.step i input) := by
  simpa [steady, hcall] using h

/-! ## Answers are members -/

/-- What the pool of a provider is, in every state. -/
def Holds : (strategy : Strategy α) → strategy.provider.State → Prop
  | .single proxy, only => Single.proxy only = proxy
  | .roundRobin _ _ pool, robin => RoundRobin.Kept pool robin
  | .random pool, members => Members.Sound members ∧ Members.pool members = pool

theorem holds_start (strategy : Strategy α) : strategy.Holds strategy.start := by
  cases strategy with
  | single proxy => rfl
  | roundRobin bits cursor pool => exact RoundRobin.kept_start pool cursor
  | random pool => exact ⟨Members.sound_new pool, rfl⟩

theorem holds_step (strategy : Strategy α) {state : strategy.provider.State}
    (h : strategy.Holds state) (point : strategy.provider.Point)
    (input : strategy.provider.Input) :
    strategy.Holds (strategy.provider.next.step state point input).1 := by
  cases strategy with
  | single proxy => exact h
  | roundRobin bits cursor pool => exact RoundRobin.kept_step h point input
  | random pool =>
    simp only [provider, Random.next]
    split_ifs <;> exact h

theorem holds_report (strategy : Strategy α) {state : strategy.provider.State}
    (h : strategy.Holds state) (proxy : α) :
    strategy.Holds (strategy.provider.reportFailure state proxy) := by
  cases strategy with
  | single proxy => exact h
  | roundRobin bits cursor pool => exact RoundRobin.kept_report h proxy
  | random pool => exact ⟨h.1.reportFailure proxy, h.2⟩

/-- An answer of a member, or none. -/
def Offers (strategy : Strategy α) : strategy.provider.Point ⊕ strategy.provider.Answer → Prop
  | .inl _ => True
  | .inr answer => ∀ proxy, strategy.provider.proxy answer = some proxy → proxy ∈ strategy.members

theorem offers_enter (strategy : Strategy α) (state : strategy.provider.State) :
    strategy.Offers (strategy.provider.next.enter state ()) := by
  cases strategy with
  | single proxy => trivial
  | random pool => trivial
  | roundRobin bits cursor pool =>
    simp only [provider, RoundRobin.next]
    split_ifs
    · intro proxy hget
      cases hget
    · trivial

theorem offers_step (strategy : Strategy α) {state : strategy.provider.State}
    (h : strategy.Holds state) (point : strategy.provider.Point)
    (input : strategy.provider.Input) :
    strategy.Offers (strategy.provider.next.step state point input).2 := by
  cases strategy with
  | single member =>
    intro proxy hget
    have hget : (if state.failed then none else some state.proxy) = some proxy := hget
    split_ifs at hget
    cases hget
    exact List.mem_singleton.mpr h
  | random pool =>
    simp only [provider, Random.next]
    split
    · trivial
    · intro proxy hget
      obtain ⟨i, -, hi⟩ := Option.bind_eq_some_iff.mp hget
      exact h.2 ▸ List.mem_of_getElem? hi
  | roundRobin bits cursor pool =>
    simp only [provider, RoundRobin.next]
    split
    · trivial
    · split_ifs
      · intro proxy hget
        exact h.2 ▸ List.mem_of_getElem? hget
      · intro proxy hget
        cases hget
      · trivial

/-! ## Steady providers answer -/

/-- A pool with an unmarked member has one to find. -/
theorem exists_unmarked {members : Members α} (hsound : members.Sound) (h : members.spares) :
    ∃ i < members.pool.length, members.isFailed i = false := by
  obtain ⟨flag, hmem, hflag⟩ := List.any_eq_true.mp h
  obtain ⟨i, hi, rfl⟩ := List.mem_iff_getElem.mp hmem
  refine ⟨i, hsound.length ▸ hi, ?_⟩
  simpa [Members.isFailed, hi] using hflag

/-- What a call under way keeps while the provider is steady. -/
def Along : (strategy : Strategy α) → strategy.provider.State → strategy.provider.Point → Prop
  | .single _, _, _ => True
  | .roundRobin _ _ _, robin, call => RoundRobin.Thorough robin (.inl call)
  | .random _, members, call =>
    (∀ i ∈ Drawing.available call, i < (Members.pool members).length) ∧
      (Drawing.available call = [] → ∀ i < Drawing.index call, Members.isFailed members i)

/-- What a call keeps while the provider is steady: it ends with a proxy. -/
def Steady (strategy : Strategy α) (state : strategy.provider.State) :
    strategy.provider.Point ⊕ strategy.provider.Answer → Prop
  | .inl point => strategy.Along state point
  | .inr answer => (strategy.provider.proxy answer).isSome

theorem steady_enter {strategy : Strategy α} (hne : strategy.members ≠ [])
    {state : strategy.provider.State} (h : strategy.Holds state) :
    strategy.Steady state (strategy.provider.next.enter state ()) := by
  cases strategy with
  | single proxy => trivial
  | random pool =>
    exact ⟨fun i hmem => absurd hmem List.not_mem_nil,
      fun _ i hi => absurd hi (Nat.not_lt_zero i)⟩
  | roundRobin bits cursor pool =>
    have hthorough := RoundRobin.thorough_enter state
    have hsize : RoundRobin.size state ≠ 0 := by
      have hpool : (RoundRobin.members state).pool = pool := h.2
      simp only [RoundRobin.size, hpool]
      exact List.length_pos_iff.mpr hne |>.ne'
    simp only [provider, RoundRobin.next, if_neg hsize] at hthorough ⊢
    exact hthorough

theorem random_step {pool : List α} {members : Members α} {call : Drawing} (pick : Nat)
    (hsound : members.Sound) (hspares : members.spares)
    (h : Along (.random pool) members call) :
    Steady (.random pool) (Random.next.step members call pick).1
      (Random.next.step members call pick).2 := by
  obtain ⟨hbound, hempty⟩ := h
  simp only [Random.next]
  split
  · rename_i hmore
    cases hflag : members.isFailed call.index with
    | true =>
      refine ⟨hbound, fun hnone i hi => ?_⟩
      rcases Nat.lt_succ_iff_lt_or_eq.mp hi with hold | rfl
      · exact hempty hnone i hold
      · exact hflag
    | false =>
      refine ⟨fun i hmem => ?_, fun hnone => by simp at hnone⟩
      rcases List.mem_append.mp hmem with hold | hnew
      · exact hbound i hold
      · rw [List.mem_singleton.mp hnew]
        exact hmore
  · rename_i hdone
    -- All flags have been read: the unmarked member was unmarked when its flag was.
    have hsome : call.available ≠ [] := by
      intro hnone
      obtain ⟨i, hi, hflag⟩ := exists_unmarked hsound hspares
      have hset := hempty hnone i (by omega)
      simp [hflag] at hset
    have hpick := Nat.mod_lt pick (List.length_pos_iff.mpr hsome)
    have hi := hbound _ (List.getElem_mem hpick)
    show ((call.available[pick % call.available.length]?).bind fun i => members.pool[i]?).isSome
    simp [List.getElem?_eq_getElem hpick, hi]

theorem roundRobin_step {bits : Nat} {cursor : BitVec bits} {pool : List α}
    {robin : RoundRobin α bits} {call : Turning α} (hsound : robin.members.Sound)
    (hspares : robin.members.spares) (h : robin.Thorough (.inl call))
    (hstep : call.index = none → call.left = robin.size ∨ robin.inStep) :
    Steady (.roundRobin bits cursor pool) (RoundRobin.next.step robin call ()).1
      (RoundRobin.next.step robin call ()).2 := by
  obtain ⟨left, index, since⟩ := call
  cases index with
  | none => exact RoundRobin.thorough_advance h (hstep rfl)
  | some i =>
    simp only [RoundRobin.next]
    split_ifs with hflag hleft
    · obtain ⟨-, -, hi, -⟩ := h
      show (robin.members.pool[i]?).isSome
      simpa [RoundRobin.size] using hi
    · have hflag : robin.members.isFailed i := by simpa using hflag
      obtain ⟨j, hj, hunset⟩ := exists_unmarked hsound hspares
      have hset := RoundRobin.thorough_exhausted h hflag hleft j hj
      simp [hunset] at hset
    · have hflag : robin.members.isFailed i := by simpa using hflag
      exact RoundRobin.thorough_pass h hflag (by omega)

theorem steady_report (strategy : Strategy α) {state : strategy.provider.State}
    {call : strategy.provider.Point ⊕ strategy.provider.Answer} (h : strategy.Steady state call)
    (proxy : α) : strategy.Steady (strategy.provider.reportFailure state proxy) call := by
  cases call with
  | inr answer => exact h
  | inl point =>
    cases strategy with
    | single member => trivial
    | roundRobin bits cursor pool => exact RoundRobin.thorough_report h proxy
    | random pool =>
      exact ⟨h.1, fun hnone i hi =>
        Members.isFailed_reportFailure.mpr (Or.inl (h.2 hnone i hi))⟩

theorem steady_own (strategy : Strategy α) {w : strategy.World} {point : strategy.provider.Point}
    {input : strategy.provider.Input} (hholds : strategy.Holds w.shared)
    (hcall : w.calls[i]? = some (.inl point)) (h : strategy.Steady w.shared (.inl point))
    (hcond : strategy.steady w (.step i input)) :
    strategy.Steady (strategy.provider.next.step w.shared point input).1
      (strategy.provider.next.step w.shared point input).2 := by
  obtain ⟨hspares, halone⟩ := steady_step hcall hcond
  cases strategy with
  | single member =>
    have hflag : w.shared.failed = false := by simpa [spares] using hspares
    show (if w.shared.failed then none else some w.shared.proxy).isSome
    simp [hflag]
  | random pool => exact random_step input hholds.1 hspares h
  | roundRobin bits cursor pool =>
    exact roundRobin_step hholds.1 hspares h fun hindex =>
      (RoundRobin.undisturbed_advance hcall hindex halone).2

theorem steady_other (strategy : Strategy α) {w : strategy.World} {j : Nat}
    {point : strategy.provider.Point} {input : strategy.provider.Input}
    {other : strategy.provider.Point ⊕ strategy.provider.Answer}
    (hcall : w.calls[i]? = some (.inl point)) (hother : w.calls[j]? = some other) (hne : j ≠ i)
    (h : strategy.Steady w.shared other) (hcond : strategy.steady w (.step i input)) :
    strategy.Steady (strategy.provider.next.step w.shared point input).1 other := by
  obtain ⟨-, halone⟩ := steady_step hcall hcond
  cases other with
  | inr answer => exact h
  | inl theirs =>
    cases strategy with
    | single member => trivial
    | random pool =>
      simp only [provider, Random.next]
      split <;> exact h
    | roundRobin bits cursor pool =>
      exact RoundRobin.thorough_other hcall hother hne h halone

/-- **A steady provider answers.** -/
theorem steady_answers (strategy : Strategy α) (hne : strategy.members ≠ [])
    {moves : List (Calls.Move Unit strategy.provider.Input α)}
    (hmeets : strategy.world.meets strategy.provider.next strategy.provider.reportFailure
      strategy.steady moves)
    {answer : strategy.provider.Answer}
    (hmem : answer ∈ (strategy.world.run strategy.provider.next strategy.provider.reportFailure
      moves).returned) : (strategy.provider.proxy answer).isSome := by
  have hrun := Calls.World.run_rule strategy.Holds strategy.Steady
    (fun state _ h => steady_enter hne h) ?own ?other ?between hmeets strategy.holds_start ?start
  case own =>
    intro w i point input hholds hcall hsteady hcond
    exact ⟨strategy.holds_step hholds point input,
      strategy.steady_own hholds hcall hsteady hcond⟩
  case other =>
    intro w i j point input other _ hcall hother hne hsteady hcond
    exact strategy.steady_other hcall hother hne hsteady hcond
  case between =>
    intro state proxy hholds
    exact ⟨strategy.holds_report hholds proxy, fun call h => strategy.steady_report h proxy⟩
  case start =>
    intro call hcall
    cases hcall
  exact hrun.2 _ (Calls.World.mem_returned.mp hmem)

end Strategy

end Chromulate.Proxy
