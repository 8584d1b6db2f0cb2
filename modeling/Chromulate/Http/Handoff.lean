import Chromulate.Core.Uri
import Chromulate.Lib.Calls
import Chromulate.Lib.Flights
import Chromulate.Lib.Select
import Chromulate.Lib.Table
import Chromulate.Lib.Time

/-!
# Handing a challenge to a browser

`ChallengeHandoff::solve` of `chromulate-http/src/middleware/challenge.rs`, as many requests call
it at once: under the lock a caller joins the solve that is registered under its target and exit,
or spends budget and starts one; it waits, for as long as its own timeout lets it; and when it
leaves it takes the lock again and removes the marker by key.

That removal does not ask whose marker it is. A caller whose time is up removes the marker of a
solve that others still wait for, and a caller that is late to leave removes the marker of a solve
that was started since. `exclusive_iff` says that this is the only way in which two solves of one
key come to be alive: in a run every solve that is alive can be joined, at every moment, exactly if
no caller that leaves finds a live solve under its key.
-/

namespace Chromulate.Http.Handoff

open Flights (Fleet AliveAt Registered Counted)

/-- `HandoffPolicy`, as far as `solve` reads it. -/
structure HandoffPolicy where
  budget : Nat
  window : Duration
  trackedOrigins : Nat
  budget_pos : 0 < budget
  trackedOrigins_pos : 0 < trackedOrigins

structure SolveKey where
  url : Url
  exit : Option Str
  deriving DecidableEq

structure Counter where
  spent : Nat
  windowStarted : Instant
  lastUsed : UInt64

/-- A counter as `spend` looks at it at `now`: the window may be over. -/
def Counter.current (counter : Counter) (window : Duration) (now : Instant) (tick : UInt64) :
    Counter :=
  if window ≤ Instant.saturatingDurationSince now counter.windowStarted then ⟨0, now, tick⟩
  else { counter with lastUsed := tick }

/-- `SolveOutcome`, for any type of what a browser hands back. -/
inductive SolveOutcome (η : Type*) where
  | done (handback : η)
  | failed (message : Str)

/-- `State`. A weak handle is the position of its solve. -/
structure State where
  counters : Table Origin Counter
  inflight : Table SolveKey Nat
  tick : UInt64

/-- The state under the lock, and the solves that were ever started. -/
structure Layer (η : Type*) where
  state : State
  solves : Fleet SolveKey (SolveOutcome η)

variable {η : Type*}

def Layer.new : Layer η := ⟨⟨∅, ∅, 0⟩, []⟩

/-! ## Under the lock -/

namespace State

abbrev Scan := Table.Scan Origin Counter

/-- `State::evict_least_recently_used`; the map is gone through in any order. -/
def evictLeastRecentlyUsed (scan : Scan) (counters : Table Origin Counter) :
    Table Origin Counter :=
  match Select.minByKey (fun entry => entry.2.lastUsed) (scan.run counters) with
  | some victim => counters.erase victim.1
  | none => counters

def spend (state : State) (policy : HandoffPolicy) (origin : Origin) (now : Instant)
    (scan : Scan) : Bool × State :=
  let tick := state.tick + 1
  match state.counters.lookup origin with
  | some counter =>
    let counter := counter.current policy.window now tick
    if policy.budget ≤ counter.spent then
      (false, { state with counters := state.counters.insert origin counter, tick })
    else
      (true, { state with
        counters := state.counters.insert origin { counter with spent := counter.spent + 1 }
        tick })
  | none =>
    let counters :=
      if policy.trackedOrigins ≤ state.counters.entries.length then
        evictLeastRecentlyUsed scan state.counters
      else state.counters
    (true, { state with counters := counters.insert origin ⟨1, now, tick⟩, tick })

def joinable (state : State) (solves : Fleet SolveKey (SolveOutcome η)) (key : SolveKey) :
    Option Nat :=
  (state.inflight.lookup key).filter fun i => Flights.upgrades solves i

def sweepAt : Nat := 32

/-- The markers that `State::register` counts. -/
def swept (state : State) (solves : Fleet SolveKey (SolveOutcome η)) : Table SolveKey Nat :=
  if sweepAt ≤ state.inflight.entries.length then
    state.inflight.retain fun _ i => Flights.upgrades solves i
  else state.inflight

def register (state : State) (solves : Fleet SolveKey (SolveOutcome η)) (key : SolveKey) (i : Nat)
    (capacity : Nat) : State :=
  { state with
    inflight :=
      if capacity ≤ (state.swept solves).entries.length then state.swept solves
      else (state.swept solves).insert key i }

def settle (state : State) (key : SolveKey) : State :=
  { state with inflight := state.inflight.erase key }

end State

/-! ## Calls of `solve` -/

/-- What a call comes to. -/
inductive Answer (η : Type*) where
  /-- The origin's budget for the window is spent. -/
  | refused
  /-- The caller's time is up. -/
  | declined
  | solved (outcome : SolveOutcome η)
  /-- The caller went away. -/
  | cancelled

/-- Where a call stands. -/
inductive Point (η : Type*) where
  | arriving (key : SolveKey) (origin : Origin)
  /-- In `timeout`, with a handle to the solve at `i`. -/
  | waiting (key : SolveKey) (i : Nat)
  /-- Past it, the handle dropped, before `settle`. -/
  | leaving (key : SolveKey) (answer : Answer η)

/-- What moves a call. -/
inductive Input where
  | lock (now : Instant) (scan : State.Scan)
  | poll (expired : Bool)
  | cancel

namespace Layer

/-- The section of `solve` under the lock. -/
def arrive (layer : Layer η) (policy : HandoffPolicy) (key : SolveKey) (origin : Origin)
    (now : Instant) (scan : State.Scan) : Layer η × (Point η ⊕ Answer η) :=
  match layer.state.joinable layer.solves key with
  | some i => ({ layer with solves := Flights.acquire layer.solves i }, .inl (.waiting key i))
  | none =>
    match layer.state.spend policy origin now scan with
    | (false, state) => ({ layer with state }, .inr .refused)
    | (true, state) =>
      let solves := Flights.start layer.solves key
      let i := layer.solves.length
      (⟨state.register solves key i policy.trackedOrigins, solves⟩, .inl (.waiting key i))

/-- A caller stops waiting. -/
def release (layer : Layer η) (i : Nat) : Layer η :=
  { layer with solves := Flights.release layer.solves i }

/-- One step of a call. The timeout looks at the solve before it looks at the clock. -/
def step (policy : HandoffPolicy) (layer : Layer η) (point : Point η) (input : Input) :
    Layer η × (Point η ⊕ Answer η) :=
  match point, input with
  | .arriving key origin, .lock now scan => layer.arrive policy key origin now scan
  | .arriving _ _, .cancel => (layer, .inr .cancelled)
  | .waiting key i, .poll expired =>
    match Flights.outcomeOf layer.solves i with
    | some outcome => (layer.release i, .inl (.leaving key (.solved outcome)))
    | none =>
      if expired then (layer.release i, .inl (.leaving key .declined))
      else (layer, .inl (.waiting key i))
  | .waiting _ i, .cancel => (layer.release i, .inr .cancelled)
  -- no await is left, so a call that leaves cannot be cancelled
  | .leaving key answer, .lock _ _ => ({ layer with state := layer.state.settle key }, .inr answer)
  | point, _ => (layer, .inl point)

end Layer

/-- `solve`, of a key and its origin. -/
def method (policy : HandoffPolicy) :
    Calls.Method (Layer η) (Point η) (SolveKey × Origin) Input (Answer η) where
  enter _ arg := .inl (.arriving arg.1 arg.2)
  step := Layer.step policy

/-- A browser is done. -/
structure Completion (η : Type*) where
  solve : Nat
  outcome : SolveOutcome η

def complete (layer : Layer η) (completion : Completion η) : Layer η :=
  { layer with solves := Flights.finish layer.solves completion.solve completion.outcome }

abbrev World (η : Type*) := Calls.World (Layer η) (Point η) (Answer η)

abbrev Move (η : Type*) := Calls.Move (SolveKey × Origin) Input (Completion η)

/-- What the callers reach from a new layer. -/
def reach (policy : HandoffPolicy) (moves : List (Move η)) : World η :=
  Calls.World.run (method policy) complete ⟨.new, []⟩ moves

/-- The solve that a call holds a handle to. -/
def holds : Point η ⊕ Answer η → Option Nat
  | .inl (.waiting _ i) => some i
  | _ => none

/-! ## What one step can do -/

section Steps

variable {policy : HandoffPolicy} {layer : Layer η} {key : SolveKey} {i : Nat}

theorem joinable_eq_some {state : State} {solves : Fleet SolveKey (SolveOutcome η)} :
    state.joinable solves key = some i ↔
      state.inflight.lookup key = some i ∧ Flights.upgrades solves i = true := by
  rw [State.joinable, Option.filter_eq_some_iff]

theorem spend_inflight (state : State) (policy : HandoffPolicy) (origin : Origin) (now : Instant)
    (scan : State.Scan) : (state.spend policy origin now scan).2.inflight = state.inflight := by
  unfold State.spend
  cases state.counters.lookup origin with
  | none => rfl
  | some counter =>
    simp only
    split_ifs <;> rfl

/-- What one step can do to the markers, to the solves and to the handle of the caller. -/
inductive Stepped (policy : HandoffPolicy) (layer : Layer η) (point : Point η) :
    Layer η × (Point η ⊕ Answer η) → Prop
  | joined {key : SolveKey} {i : Nat} (hfree : holds (.inl point) = none)
      (hup : Flights.upgrades layer.solves i = true) :
      Stepped policy layer point
        (⟨layer.state, Flights.acquire layer.solves i⟩, .inl (.waiting key i))
  | started {key : SolveKey} {origin : Origin} {state : State}
      (hpoint : point = .arriving key origin)
      (hnone : layer.state.joinable layer.solves key = none)
      (hinflight : state.inflight = layer.state.inflight) :
      Stepped policy layer point
        (⟨state.register (Flights.start layer.solves key) key layer.solves.length
            policy.trackedOrigins, Flights.start layer.solves key⟩,
          .inl (.waiting key layer.solves.length))
  | released {i : Nat} {next : Point η ⊕ Answer η} (hheld : holds (.inl point) = some i)
      (hnext : holds next = none) :
      Stepped policy layer point (layer.release i, next)
  | settled {key : SolveKey} {answer : Answer η} (hpoint : point = .leaving key answer) :
      Stepped policy layer point (⟨layer.state.settle key, layer.solves⟩, .inr answer)
  | idle {state : State} {next : Point η ⊕ Answer η}
      (hinflight : state.inflight = layer.state.inflight)
      (hsame : holds next = holds (.inl point)) :
      Stepped policy layer point (⟨state, layer.solves⟩, next)

theorem stepped_arrive (layer : Layer η) (key : SolveKey) (origin : Origin) (now : Instant)
    (scan : State.Scan) :
    Stepped policy layer (.arriving key origin) (layer.arrive policy key origin now scan) := by
  unfold Layer.arrive
  cases hjoin : layer.state.joinable layer.solves key with
  | some i => exact .joined rfl (joinable_eq_some.mp hjoin).2
  | none =>
    have hinflight := spend_inflight layer.state policy origin now scan
    generalize layer.state.spend policy origin now scan = spent at hinflight
    obtain ⟨granted, state⟩ := spent
    cases granted with
    | false => exact .idle hinflight rfl
    | true => exact .started rfl hjoin hinflight

theorem step_poll (layer : Layer η) (key : SolveKey) (i : Nat) (expired : Bool) :
    layer.step policy (.waiting key i) (.poll expired) =
      match Flights.outcomeOf layer.solves i with
      | some outcome => (layer.release i, .inl (.leaving key (.solved outcome)))
      | none =>
        if expired then (layer.release i, .inl (.leaving key .declined))
        else (layer, .inl (.waiting key i)) := rfl

theorem stepped (policy : HandoffPolicy) (layer : Layer η) (point : Point η) (input : Input) :
    Stepped policy layer point (layer.step policy point input) := by
  cases point with
  | arriving key origin =>
    cases input with
    | lock now scan => exact stepped_arrive layer key origin now scan
    | poll expired => exact .idle rfl rfl
    | cancel => exact .idle rfl rfl
  | waiting key i =>
    cases input with
    | lock now scan => exact .idle rfl rfl
    | cancel => exact .released rfl rfl
    | poll expired =>
      rw [step_poll]
      cases Flights.outcomeOf layer.solves i with
      | some outcome => exact .released rfl rfl
      | none =>
        cases expired with
        | true => exact .released rfl rfl
        | false => exact .idle rfl rfl
  | leaving key answer =>
    cases input with
    | lock now scan => exact .settled rfl
    | poll expired => exact .idle rfl rfl
    | cancel => exact .idle rfl rfl

end Steps

/-! ## Handles -/

/-- The handles that the calls hold. -/
def held (w : World η) : List (Option Nat) := w.calls.map holds

theorem counted_stepped {policy : HandoffPolicy} {layer : Layer η} {handles : List (Option Nat)}
    {j : Nat} {point : Point η} {out : Layer η × (Point η ⊕ Answer η)}
    (h : Counted layer.solves handles) (hj : handles[j]? = some (holds (.inl point)))
    (hstep : Stepped policy layer point out) :
    Counted out.1.solves (handles.set j (holds out.2)) := by
  cases hstep with
  | joined hfree hup =>
    rw [hfree] at hj
    exact h.acquire hj (h.2 _ (h.upgrades_iff.mp hup))
  | started hpoint hnone hinflight =>
    subst hpoint
    exact h.start hj _
  | released hheld hnext =>
    rw [hheld] at hj
    rw [hnext]
    exact h.release hj
  | settled hpoint =>
    subst hpoint
    exact h.keep hj
  | idle hinflight hsame =>
    rw [hsame]
    exact h.keep hj

theorem counted_move {policy : HandoffPolicy} {w : World η} (m : Move η)
    (h : Counted w.shared.solves (held w)) :
    Counted (w.move (method policy) complete m).shared.solves
      (held (w.move (method policy) complete m)) := by
  cases m with
  | call arg =>
    have hheld : held (w.move (method policy) complete (.call arg)) = held w ++ [none] := by
      simp [held, Calls.World.move, method, holds]
    rw [hheld]
    exact h.append
  | act completion => exact h.finish completion.outcome
  | step j input =>
    by_cases hpoint : ∃ point, w.calls[j]? = some (.inl point)
    · obtain ⟨point, hj⟩ := hpoint
      have hholds : (held w)[j]? = some (holds (.inl point)) := by simp [held, hj]
      rw [Calls.World.move_step hj, held, List.map_set]
      exact counted_stepped h hholds (stepped policy w.shared point input)
    · rw [Calls.World.move_step_of_not (not_exists.mp hpoint)]
      exact h

theorem counted_reach (policy : HandoffPolicy) (moves : List (Move η)) :
    Counted (reach policy moves).shared.solves (held (reach policy moves)) := by
  refine Calls.World.run_induction (fun w => Counted w.shared.solves (held w))
    (fun w m h _ => counted_move m h) (Calls.World.meets_true _ moves) ?_
  exact ⟨fun i flight hget => absurd hget (by simp [Layer.new]),
    fun i hmem => absurd hmem List.not_mem_nil⟩

/-- **A weak handle upgrades exactly while a caller waits with a strong one.** -/
theorem upgrades_iff_waiting (policy : HandoffPolicy) (moves : List (Move η)) (i : Nat) :
    Flights.upgrades (reach policy moves).shared.solves i = true ↔
      ∃ key, .inl (.waiting key i) ∈ (reach policy moves).calls := by
  rw [(counted_reach policy moves).upgrades_iff, held, List.mem_map]
  constructor
  · rintro ⟨call, hmem, hholds⟩
    match call with
    | .inl (.waiting key j) =>
      cases hholds
      exact ⟨key, hmem⟩
  · rintro ⟨key, hmem⟩
    exact ⟨_, hmem, rfl⟩

/-! ## One browser per target -/

/-- At most one solve of a key is alive, and a caller that arrives now joins it: nothing is spent
and nothing started. -/
def Exclusive (policy : HandoffPolicy) (layer : Layer η) : Prop :=
  ∀ key i, AliveAt layer.solves key i →
    (∀ j, AliveAt layer.solves key j → j = i) ∧
    ∀ origin now scan, layer.arrive policy key origin now scan =
      (⟨layer.state, Flights.acquire layer.solves i⟩, .inl (.waiting key i))

/-- The markers are of every solve that is alive. -/
def Marked (layer : Layer η) : Prop := Registered layer.solves layer.state.inflight.lookup

theorem joinable_of_marked {layer : Layer η} (h : Marked layer) {key : SolveKey} {i : Nat}
    (hi : AliveAt layer.solves key i) : layer.state.joinable layer.solves key = some i :=
  joinable_eq_some.mpr ⟨h key i hi, hi.upgrades⟩

theorem exclusive_iff_marked {policy : HandoffPolicy} {layer : Layer η} :
    Exclusive policy layer ↔ Marked layer := by
  constructor
  · intro h key i hi
    have hjoin := (h key i hi).2 ⟨[], [], 0⟩ 0 .listed
    -- arriving hands out the name of a live solve only by joining it
    cases hjoinable : layer.state.joinable layer.solves key with
    | some j =>
      simp only [Layer.arrive, hjoinable, Prod.mk.injEq, Sum.inl.injEq, Point.waiting.injEq,
        true_and] at hjoin
      rw [← hjoin.2]
      exact (joinable_eq_some.mp hjoinable).1
    | none =>
      have hlt : i < layer.solves.length := by
        obtain ⟨flight, hget, _⟩ := hi
        exact (List.getElem?_eq_some_iff.mp hget).1
      have hout := congrArg Prod.snd hjoin
      rw [Layer.arrive, hjoinable] at hout
      generalize layer.state.spend policy _ _ _ = spent at hout
      obtain ⟨granted, state⟩ := spent
      cases granted with
      | false => cases hout
      | true =>
        cases hout
        exact absurd hlt (Nat.lt_irrefl _)
  · intro h key i hi
    refine ⟨fun j hj => h.unique hj hi, fun origin now scan => ?_⟩
    rw [Layer.arrive, joinable_of_marked h hi]

/-- Under the lock a caller joins, or there is room for one more marker. -/
def room (policy : HandoffPolicy) (w : World η) : Move η → Bool
  | .step j (.lock _ _) =>
    match w.calls[j]? with
    | some (.inl (.arriving key _)) =>
      (w.shared.state.joinable w.shared.solves key).isSome ||
        decide ((w.shared.state.swept (Flights.start w.shared.solves key)).entries.length <
          policy.trackedOrigins)
    | _ => true
  | _ => true

/-- A caller that leaves finds no live solve under its key. -/
def spares (w : World η) : Move η → Bool
  | .step j (.lock _ _) =>
    match w.calls[j]? with
    | some (.inl (.leaving key _)) =>
      !(w.shared.state.inflight.lookup key).any fun i =>
        decide (AliveAt w.shared.solves key i)
    | _ => true
  | _ => true

theorem lookup_swept {state : State} {solves : Fleet SolveKey (SolveOutcome η)} {key : SolveKey}
    {i : Nat} (h : state.inflight.lookup key = some i) (hup : Flights.upgrades solves i = true) :
    (state.swept solves).lookup key = some i := by
  rw [State.swept]
  split_ifs
  · rw [Table.lookup_retain, h]
    simp [hup]
  · exact h

/-- A solve is started when no marker can be joined, and there is room for its own. -/
theorem marked_started {layer : Layer η} (h : Marked layer) {state : State} {key : SolveKey}
    (hnone : layer.state.joinable layer.solves key = none)
    (hinflight : state.inflight = layer.state.inflight) {capacity : Nat}
    (hroom : (state.swept (Flights.start layer.solves key)).entries.length < capacity) :
    Marked ⟨state.register (Flights.start layer.solves key) key layer.solves.length capacity,
      Flights.start layer.solves key⟩ := by
  have hregister : (state.register (Flights.start layer.solves key) key layer.solves.length
      capacity).inflight =
        (state.swept (Flights.start layer.solves key)).insert key layer.solves.length :=
    if_neg (Nat.not_le_of_lt hroom)
  refine h.start ?_ ?_ ?_
  · intro i hi
    rw [joinable_of_marked h hi] at hnone
    cases hnone
  · simp [hregister]
  · intro other i hne hi hlookup
    have halive : AliveAt (Flights.start layer.solves key) other i :=
      Flights.aliveAt_start.mpr (.inl hi)
    rw [← hinflight] at hlookup
    show (state.register _ key _ capacity).inflight.lookup other = some i
    rw [hregister, AList.lookup_insert_ne hne]
    exact lookup_swept hlookup halive.upgrades

/-- `settle` keeps the live solves marked exactly if it finds none of them. -/
theorem marked_settle {layer : Layer η} (h : Marked layer) (key : SolveKey) :
    Marked ⟨layer.state.settle key, layer.solves⟩ ↔
      ∀ i, layer.state.inflight.lookup key = some i → ¬ AliveAt layer.solves key i := by
  constructor
  · intro hafter i _ hi
    have hlookup : (layer.state.inflight.erase key).lookup key = some i := hafter key i hi
    rw [AList.lookup_erase] at hlookup
    cases hlookup
  · intro hspared
    refine h.mono (fun _ _ hi => hi) fun other i hi hlookup => ?_
    have hne : other ≠ key := by
      rintro rfl
      exact hspared i hlookup hi
    show (layer.state.inflight.erase key).lookup other = some i
    rw [AList.lookup_erase_ne hne, hlookup]

/-- Every other step keeps the live solves marked. -/
theorem marked_stepped {policy : HandoffPolicy} {layer : Layer η} {point : Point η}
    {out : Layer η × (Point η ⊕ Answer η)} (h : Marked layer)
    (hroom : ∀ key origin, point = .arriving key origin →
      layer.state.joinable layer.solves key = none →
        (layer.state.swept (Flights.start layer.solves key)).entries.length <
          policy.trackedOrigins)
    (hstay : ∀ key answer, point ≠ .leaving key answer)
    (hstep : Stepped policy layer point out) : Marked out.1 := by
  cases hstep with
  | joined hfree hup =>
    exact h.mono (fun _ _ hi => Flights.aliveAt_of_acquire hup hi) fun _ _ _ hlookup => hlookup
  | started hpoint hnone hinflight =>
    refine marked_started h hnone hinflight ?_
    have hswept := hroom _ _ hpoint hnone
    rwa [State.swept, ← hinflight] at hswept
  | released hheld hnext =>
    exact h.mono (fun _ _ hi => Flights.aliveAt_of_release hi) fun _ _ _ hlookup => hlookup
  | settled hpoint => exact absurd hpoint (hstay _ _)
  | idle hinflight hsame =>
    refine h.mono (fun _ _ hi => hi) fun other i _ hlookup => ?_
    show _ = some i
    rw [hinflight]
    exact hlookup

theorem marked_move {policy : HandoffPolicy} {w : World η} {m : Move η} (h : Marked w.shared)
    (hroom : room policy w m = true) :
    Marked (w.move (method policy) complete m).shared ↔ spares w m = true := by
  cases m with
  | call arg => exact iff_of_true h rfl
  | act completion =>
    refine iff_of_true ?_ rfl
    exact h.mono (fun _ _ hi => Flights.aliveAt_of_finish hi) fun _ _ _ hlookup => hlookup
  | step j input =>
    by_cases hpoint : ∃ point, w.calls[j]? = some (.inl point)
    · obtain ⟨point, hj⟩ := hpoint
      rw [Calls.World.move_step hj]
      cases point with
      | arriving key origin =>
        cases input with
        | lock now scan =>
          have hspares : spares w (.step j (.lock now scan)) = true := by
            simp [spares, hj]
          have hstep := stepped policy w.shared (.arriving key origin) (.lock now scan)
          refine iff_of_true (marked_stepped h ?_ (by simp) hstep) hspares
          rintro _ _ ⟨⟩ hnone
          simpa [room, hj, hnone] using hroom
        | poll expired => exact iff_of_true h rfl
        | cancel => exact iff_of_true h rfl
      | waiting key i =>
        have hspares : spares w (.step j input) = true := by
          cases input <;> simp [spares, hj]
        have hstep := stepped policy w.shared (.waiting key i) input
        exact iff_of_true (marked_stepped h (by simp) (by simp) hstep) hspares
      | leaving key answer =>
        cases input with
        | lock now scan =>
          refine (marked_settle h key).trans ?_
          cases hlookup : w.shared.state.inflight.lookup key <;> simp [spares, hj, hlookup]
        | poll expired => exact iff_of_true h rfl
        | cancel => exact iff_of_true h rfl
    · have hspares : spares w (.step j input) = true := by
        cases input with
        | lock now scan =>
          simp only [spares]
          split
          · rename_i hj
            exact absurd ⟨_, hj⟩ hpoint
          · rfl
        | poll expired => rfl
        | cancel => rfl
      rw [Calls.World.move_step_of_not (not_exists.mp hpoint)]
      exact iff_of_true h hspares

/-- **One browser per target.** As long as there is room for markers: at every moment of a run at
most one solve of each key is alive, and joined by whoever arrives, exactly if no caller that
leaves finds a live solve under its key. -/
theorem exclusive_iff (policy : HandoffPolicy) (moves : List (Move η))
    (hroom : Calls.World.meets (method policy) complete (room policy) ⟨.new, []⟩ moves) :
    (∀ front, front <+: moves → Exclusive policy (reach policy front).shared) ↔
      Calls.World.meets (method policy) complete spares ⟨.new, []⟩ moves := by
  have hnew : Marked (Layer.new : Layer η) := by
    rintro key i ⟨flight, hget, _⟩
    simp [Layer.new] at hget
  simp only [exclusive_iff_marked]
  exact Calls.World.forall_prefix_iff_meets (fun w => Marked w.shared)
    (fun w m h hm => marked_move h hm) hroom hnew

def HandoffPolicy.default : HandoffPolicy :=
  ⟨2, .fromSecs 300, 256, Nat.zero_lt_succ 1, Nat.zero_lt_succ 255⟩

/-- A page behind a challenge. -/
def guardedKey : SolveKey := ⟨.plain "https" "guarded.example" "/", none⟩

def guardedOrigin : Origin := ⟨"https".toList, "guarded.example".toList, 443⟩

/-- A request for the page. -/
def request : Move Unit := .call (guardedKey, guardedOrigin)

/-- Two requests wait for one browser, which comes back; both leave before a third arrives. -/
def inTurn : List (Move Unit) :=
  [request, request, .step 0 (.lock 0 .listed), .step 1 (.lock 1 .listed),
    .act ⟨0, .done ()⟩, .step 0 (.poll false), .step 1 (.poll false),
    .step 0 (.lock 2 .listed), .step 1 (.lock 2 .listed), request, .step 2 (.lock 3 .listed)]

theorem exclusive_inTurn : Exclusive .default (reach .default inTurn).shared :=
  (exclusive_iff .default inTurn (by decide +kernel)).mpr (by decide +kernel) inTurn
    (List.prefix_refl _)

/-- Two requests wait for one browser. The first runs out of time and removes the marker while the
second still waits; the third finds no marker. -/
def overtaken : List (Move Unit) :=
  [request, request, .step 0 (.lock 0 .listed), .step 1 (.lock 1 .listed),
    .step 0 (.poll true), .step 0 (.lock 2 .listed), request, .step 2 (.lock 3 .listed)]

theorem two_browsers :
    Calls.World.meets (method .default) complete (room .default) ⟨.new, []⟩ overtaken ∧
      AliveAt (reach .default overtaken).shared.solves guardedKey 0 ∧
      AliveAt (reach .default overtaken).shared.solves guardedKey 1 := by
  decide +kernel

end Chromulate.Http.Handoff
