import Chromulate.Http.Sessions
import Chromulate.Lib.Calls

/-!
# Sessions for many tasks at once

`Isolated::session_for` and `Isolated::existing` as many tasks call them: a number is drawn, then
the routes are looked at under the read lock, then, for a route that is new, they are changed under
the write lock. Other calls may step in between. A write section is one step, since nothing is seen
of the routes while it is open; the order in which it goes through the map is any.

Run without interruption the steps are `Sessions::for_route` (`run_alone`). Interrupted, a call
files its session with a number that was drawn long ago, and that number may be the smallest: then
`evict` drops the newcomer itself. `minted_is_filed` says that this is the only way in which a
session is not filed, and `newcomer_evicted` is a run in which it happens.
-/

namespace Chromulate.Http

/-- `Isolated`, with the number of sessions there are. -/
structure Registry where
  isolated : Isolated
  made : Nat

namespace Registry

open Isolated (Scan oldest evictLoop evict)

/-- A call: of `session_for`, which mints, or of `existing`. -/
structure Request where
  minting : Bool
  proxy : Str

/-- Where a call stands. -/
inductive Point where
  | entered (minting : Bool) (proxy : Str)
  /-- The number is drawn. -/
  | drawn (minting : Bool) (proxy : Str) (seq : BitVec 64)
  /-- `session_for` found nothing under the read lock. -/
  | missed (proxy : Str) (seq : BitVec 64)

/-- What a call returns. -/
structure Answer where
  proxy : Str
  session : Option Nat
  deriving DecidableEq

theorem pos_max_one (maxRoutes : Nat) : 0 < max maxRoutes 1 := by omega

/-- `Isolated` as `Sessions::per_proxy` makes it. The base session is there already. -/
def new (maxRoutes : Nat) : Registry := ⟨⟨∅, 0, max maxRoutes 1, pos_max_one maxRoutes⟩, 1⟩

/-! ## The write section -/

/-- The routes, changed. -/
def withRoutes (registry : Registry) (routes : Table Str RouteEntry) : Registry :=
  { registry with isolated := { registry.isolated with routes := routes } }

/-- A use is recorded. -/
def use (registry : Registry) (proxy : Str) (entry : RouteEntry) (seq : BitVec 64) : Registry :=
  registry.withRoutes (registry.isolated.routes.insert proxy { entry with lastUseSeq := seq })

/-- A session is minted and filed. -/
def mint (registry : Registry) (scan : Scan) (proxy : Str) (seq : BitVec 64) : Registry :=
  { registry.withRoutes (evict scan registry.isolated.maxRoutes
      (registry.isolated.routes.insert proxy ⟨registry.made, seq⟩)) with
    made := registry.made + 1 }

/-! ## The calls -/

/-- One step of a call. -/
def step (registry : Registry) (point : Point) (scan : Scan) : Registry × (Point ⊕ Answer) :=
  match point with
  | .entered minting proxy =>
    ({ registry with isolated := { registry.isolated with seq := registry.isolated.seq + 1 } },
      .inl (.drawn minting proxy registry.isolated.seq))
  | .drawn minting proxy seq =>
    match registry.isolated.routes.lookup proxy with
    | some entry => (registry.use proxy entry seq, .inr ⟨proxy, some entry.session⟩)
    | none =>
      if minting then (registry, .inl (.missed proxy seq)) else (registry, .inr ⟨proxy, none⟩)
  | .missed proxy seq =>
    match registry.isolated.routes.lookup proxy with
    | some entry => (registry.use proxy entry seq, .inr ⟨proxy, some entry.session⟩)
    | none => (registry.mint scan proxy seq, .inr ⟨proxy, some registry.made⟩)

/-- `session_for` and `existing`. -/
def method : Calls.Method Registry Point Request Scan Answer where
  enter _ request := .inl (.entered request.minting request.proxy)
  step := step

abbrev World := Calls.World Registry Point Answer

abbrev Move := Calls.Move Request Scan Empty

/-- Nothing happens but these calls. -/
def undisturbed (_ : Registry) : Empty → Registry := Empty.elim

/-- What the tasks reach from a new registry. -/
def reach (maxRoutes : Nat) (moves : List Move) : World :=
  Calls.World.run method undisturbed ⟨new maxRoutes, []⟩ moves

/-- The session filed under a label. -/
def filed (registry : Registry) (proxy : Str) : Option Nat :=
  (registry.isolated.routes.lookup proxy).map RouteEntry.session

/-! ## Alone -/

/-- **A call that nobody interrupts is `Sessions::for_route`.** -/
theorem run_alone {σ : Type*} (fresh : σ) {sessions : Sessions σ} {isolated : Isolated}
    (h : sessions.isolated = some isolated) (proxy : Str) :
    let out := sessions.forRoute fresh (some proxy)
    ∃ registry, Calls.World.run method undisturbed ⟨⟨isolated, sessions.made.length⟩, []⟩
        [.call ⟨true, proxy⟩, .step 0 .listed, .step 0 .listed, .step 0 .listed] =
          ⟨registry, [.inr ⟨proxy, some out.2⟩]⟩ ∧
      out.1.isolated = some registry.isolated ∧ out.1.made.length = registry.made := by
  cases hlookup : isolated.routes.lookup proxy with
  | none =>
    simp [Calls.World.run, Calls.World.move, method, step, Sessions.forRoute, h, hlookup, mint,
      withRoutes, Isolated.file]
  | some entry =>
    simp [Calls.World.run, Calls.World.move, method, step, Sessions.forRoute, h, hlookup, use,
      withRoutes, Isolated.touch]

/-! ## The write section keeps what it promises -/

/-- A route that was used no later than any other. -/
def Least (routes : Table Str RouteEntry) (victim : Str) : Prop :=
  ∃ entry, routes.lookup victim = some entry ∧ ∀ other found, routes.lookup other = some found →
    entry.lastUseSeq.toNat ≤ found.lastUseSeq.toNat

section Evict

variable {scan : Scan} {maxRoutes : Nat} {routes : Table Str RouteEntry}

theorem least_of_oldest {victim : Str} (h : oldest scan routes = some victim) :
    Least routes victim := by
  obtain ⟨entry, hmin, rfl⟩ := Option.map_eq_some_iff.mp h
  refine ⟨entry.2, Table.Scan.mem_run.mp (Select.mem_of_minByKey hmin), fun other found h => ?_⟩
  exact Select.le_of_minByKey (b := ⟨other, found⟩) hmin (Table.Scan.mem_run.mpr h)

theorem exists_oldest (scan : Scan) (h : 0 < routes.entries.length) :
    ∃ victim, oldest scan routes = some victim := by
  have hne : scan.run routes ≠ [] := by
    intro hnil
    have hperm := (scan.perm routes).length_eq
    rw [hnil, List.length_nil] at hperm
    omega
  obtain ⟨entry, hmin⟩ := Select.exists_minByKey (fun entry => entry.2.lastUseSeq.toNat) hne
  exact ⟨entry.1, by rw [oldest, hmin]; rfl⟩

theorem evict_of_le (h : routes.entries.length ≤ maxRoutes) :
    evict scan maxRoutes routes = routes := by
  unfold evict
  cases routes.entries.length with
  | zero => rfl
  | succ n => rw [evictLoop, if_pos h]

theorem evict_of_eq (h : routes.entries.length = maxRoutes + 1) {victim : Str}
    (holdest : oldest scan routes = some victim) :
    evict scan maxRoutes routes = routes.erase victim ∧
      (routes.erase victim).entries.length = maxRoutes := by
  obtain ⟨entry, hlookup, -⟩ := least_of_oldest holdest
  have hlength : (routes.erase victim).entries.length = maxRoutes := by
    have hperm := (Table.entries_perm hlookup).length_eq
    rw [h, List.length_cons] at hperm
    omega
  refine ⟨?_, hlength⟩
  have hover : ¬ routes.entries.length ≤ maxRoutes := by omega
  rw [evict, h, evictLoop, if_neg hover, holdest]
  cases maxRoutes with
  | zero => rfl
  | succ n =>
    show evictLoop scan (n + 1) (n + 1) (routes.erase victim) = routes.erase victim
    rw [evictLoop, if_pos (Nat.le_of_eq hlength)]

end Evict

/-- The routes with the new one, before any is dropped. -/
def inserted (registry : Registry) (proxy : Str) (seq : BitVec 64) : Table Str RouteEntry :=
  registry.isolated.routes.insert proxy ⟨registry.made, seq⟩

/-- The cap is kept. -/
def Bounded (registry : Registry) : Prop :=
  registry.isolated.routes.entries.length ≤ registry.isolated.maxRoutes

section Steps

variable {registry : Registry} {point : Point} {scan : Scan} {proxy : Str} {seq : BitVec 64}

theorem bounded_use {entry : RouteEntry} (h : registry.Bounded)
    (hlookup : registry.isolated.routes.lookup proxy = some entry) (seq : BitVec 64) :
    (registry.use proxy entry seq).Bounded := by
  unfold Bounded use withRoutes at *
  have hperm := (Table.entries_perm hlookup).length_eq
  rw [List.length_cons] at hperm
  rw [AList.entries_insert, List.length_cons]
  exact hperm ▸ h

theorem length_inserted (hlookup : registry.isolated.routes.lookup proxy = none) :
    (registry.inserted proxy seq).entries.length =
      registry.isolated.routes.entries.length + 1 := by
  rw [inserted, AList.entries_insert_of_notMem (AList.lookup_eq_none.mp hlookup), List.length_cons]

/-- With room for it the new route is filed, and nothing goes. -/
theorem mint_of_room (hlookup : registry.isolated.routes.lookup proxy = none)
    (hroom : registry.isolated.routes.entries.length < registry.isolated.maxRoutes) (scan : Scan)
    (seq : BitVec 64) :
    (registry.mint scan proxy seq).isolated.routes = registry.inserted proxy seq := by
  have hfits : (registry.inserted proxy seq).entries.length ≤ registry.isolated.maxRoutes := by
    rw [length_inserted hlookup]
    exact hroom
  exact evict_of_le hfits

/-- Without, the least recently used of all goes, the new one included. -/
theorem mint_of_full (hlookup : registry.isolated.routes.lookup proxy = none)
    (hfull : registry.isolated.routes.entries.length = registry.isolated.maxRoutes) {victim : Str}
    (holdest : oldest scan (registry.inserted proxy seq) = some victim) :
    (registry.mint scan proxy seq).isolated.routes = (registry.inserted proxy seq).erase victim ∧
      (registry.mint scan proxy seq).Bounded := by
  have hlength : (registry.inserted proxy seq).entries.length =
      registry.isolated.maxRoutes + 1 := by
    rw [length_inserted hlookup, hfull]
  obtain ⟨hevict, hleft⟩ := evict_of_eq hlength holdest
  refine ⟨hevict, ?_⟩
  show (evict scan registry.isolated.maxRoutes (registry.inserted proxy seq)).entries.length ≤
    registry.isolated.maxRoutes
  rw [hevict, hleft]

theorem exists_oldest_inserted (hlookup : registry.isolated.routes.lookup proxy = none)
    (scan : Scan) (seq : BitVec 64) :
    ∃ victim, oldest scan (registry.inserted proxy seq) = some victim :=
  exists_oldest scan (by rw [length_inserted hlookup]; omega)

theorem bounded_mint (h : registry.Bounded)
    (hlookup : registry.isolated.routes.lookup proxy = none) (scan : Scan) (seq : BitVec 64) :
    (registry.mint scan proxy seq).Bounded := by
  rcases Nat.lt_or_eq_of_le h with hroom | hfull
  · unfold Bounded
    rw [mint_of_room hlookup hroom, length_inserted hlookup]
    exact hroom
  · obtain ⟨victim, holdest⟩ := exists_oldest_inserted hlookup scan seq
    exact (mint_of_full hlookup hfull holdest).2

/-- What one step can do. -/
inductive Stepped (registry : Registry) (scan : Scan) : Point → Registry × (Point ⊕ Answer) → Prop
  | drew (minting : Bool) (proxy : Str) :
      Stepped registry scan (.entered minting proxy)
        ({ registry with isolated := { registry.isolated with seq := registry.isolated.seq + 1 } },
          .inl (.drawn minting proxy registry.isolated.seq))
  | used {point : Point} {proxy : Str} {entry : RouteEntry} (seq : BitVec 64) :
      registry.isolated.routes.lookup proxy = some entry →
      Stepped registry scan point (registry.use proxy entry seq, .inr ⟨proxy, some entry.session⟩)
  | passed {proxy : Str} {seq : BitVec 64} :
      registry.isolated.routes.lookup proxy = none →
      Stepped registry scan (.drawn true proxy seq) (registry, .inl (.missed proxy seq))
  | refused {proxy : Str} {seq : BitVec 64} :
      registry.isolated.routes.lookup proxy = none →
      Stepped registry scan (.drawn false proxy seq) (registry, .inr ⟨proxy, none⟩)
  | minted {proxy : Str} {seq : BitVec 64} :
      registry.isolated.routes.lookup proxy = none →
      Stepped registry scan (.missed proxy seq)
        (registry.mint scan proxy seq, .inr ⟨proxy, some registry.made⟩)

theorem stepped (registry : Registry) (point : Point) (scan : Scan) :
    Stepped registry scan point (step registry point scan) := by
  cases point with
  | entered minting proxy => exact .drew minting proxy
  | drawn minting proxy seq =>
    unfold step
    cases hlookup : registry.isolated.routes.lookup proxy with
    | some entry => simpa [hlookup] using Stepped.used seq hlookup
    | none =>
      cases minting with
      | true => simpa [hlookup] using Stepped.passed hlookup
      | false => simpa [hlookup] using Stepped.refused hlookup
  | missed proxy seq =>
    unfold step
    cases hlookup : registry.isolated.routes.lookup proxy with
    | some entry => simpa [hlookup] using Stepped.used seq hlookup
    | none => simpa [hlookup] using Stepped.minted hlookup

theorem bounded_step (h : registry.Bounded) (point : Point) (scan : Scan) :
    (step registry point scan).1.Bounded := by
  have hs := stepped registry point scan
  generalize step registry point scan = out at hs
  cases hs with
  | drew => exact h
  | used seq hlookup => exact bounded_use h hlookup seq
  | passed => exact h
  | refused => exact h
  | minted hlookup => exact bounded_mint h hlookup scan _

theorem filed_use {entry : RouteEntry}
    (hlookup : registry.isolated.routes.lookup proxy = some entry) (seq : BitVec 64) (other : Str) :
    (registry.use proxy entry seq).filed other = registry.filed other := by
  unfold filed use withRoutes
  by_cases hother : other = proxy
  · subst hother
    rw [AList.lookup_insert, hlookup]
    rfl
  · rw [AList.lookup_insert_ne hother]

variable {session : Nat}

theorem filed_mint (h : registry.Bounded) (hlookup : registry.isolated.routes.lookup proxy = none)
    (scan : Scan) (seq : BitVec 64) {other : Str} (hfiled : registry.filed other = some session) :
    (registry.mint scan proxy seq).filed other = some session ∨
      (registry.mint scan proxy seq).filed other = none := by
  have hne : other ≠ proxy := by
    rintro rfl
    simp [filed, hlookup] at hfiled
  have hinserted : (registry.inserted proxy seq).lookup other =
      registry.isolated.routes.lookup other := AList.lookup_insert_ne hne
  rcases Nat.lt_or_eq_of_le h with hroom | hfull
  · refine Or.inl ?_
    rw [filed, mint_of_room hlookup hroom, hinserted]
    exact hfiled
  · obtain ⟨victim, holdest⟩ := exists_oldest_inserted hlookup scan seq
    rw [filed, (mint_of_full hlookup hfull holdest).1]
    by_cases hvictim : other = victim
    · subst hvictim
      exact Or.inr (by simp [AList.lookup_erase])
    · refine Or.inl ?_
      rw [AList.lookup_erase_ne hvictim, hinserted]
      exact hfiled

theorem filed_step (h : registry.Bounded) (point : Point) (scan : Scan) {other : Str}
    (hfiled : registry.filed other = some session) :
    (step registry point scan).1.filed other = some session ∨
      (step registry point scan).1.filed other = none := by
  have hs := stepped registry point scan
  generalize step registry point scan = out at hs
  cases hs with
  | drew | passed | refused => exact Or.inl hfiled
  | used seq hlookup => exact Or.inl ((filed_use hlookup seq other).trans hfiled)
  | minted hlookup => exact filed_mint h hlookup scan _ hfiled

theorem answer_of_filed {answer : Answer} (hanswer : (step registry point scan).2 = .inr answer)
    (hfiled : registry.filed answer.proxy = some session) : answer.session = some session := by
  have hs := stepped registry point scan
  generalize step registry point scan = out at hs hanswer
  cases hs with
  | drew => cases hanswer
  | used seq hlookup =>
    cases hanswer
    simpa [filed, hlookup] using hfiled
  | passed => cases hanswer
  | refused hlookup =>
    cases hanswer
    simp [filed, hlookup] at hfiled
  | minted hlookup =>
    cases hanswer
    simp [filed, hlookup] at hfiled

/-- A call of `existing`. -/
def Point.ofExisting : Point → Bool
  | .entered minting _ => !minting
  | .drawn minting _ _ => !minting
  | .missed _ _ => false

theorem filed_step_existing (hpoint : point.ofExisting) (scan : Scan) (other : Str) :
    (step registry point scan).1.filed other = registry.filed other := by
  have hs := stepped registry point scan
  generalize step registry point scan = out at hs
  cases hs with
  | drew => rfl
  | used seq hlookup => exact filed_use hlookup seq other
  | passed => rfl
  | refused => rfl
  | minted => cases hpoint

/-! ## When the newcomer stays -/

/-- The session that the call is about to mint, if it does, is not the one that was used least
recently: there is room for it, or a route on file was last used before its number was drawn. -/
def timely (registry : Registry) : Point → Bool
  | .missed proxy seq =>
    (registry.filed proxy).isSome ||
    decide (registry.isolated.routes.entries.length < registry.isolated.maxRoutes) ||
    registry.isolated.routes.values.any fun entry => entry.lastUseSeq.toNat < seq.toNat
  | _ => true

/-- The session that a step returns is on file at its end. -/
def Files (registry : Registry) (point : Point) (scan : Scan) : Prop :=
  ∀ proxy session, (step registry point scan).2 = .inr ⟨proxy, some session⟩ →
    (step registry point scan).1.filed proxy = some session

theorem filed_mint_of_timely (h : registry.Bounded)
    (hlookup : registry.isolated.routes.lookup proxy = none)
    (htimely : registry.timely (.missed proxy seq)) (scan : Scan) :
    (registry.mint scan proxy seq).filed proxy = some registry.made := by
  have hnew : (registry.inserted proxy seq).lookup proxy = some ⟨registry.made, seq⟩ :=
    AList.lookup_insert _
  rcases Nat.lt_or_eq_of_le h with hroom | hfull
  · rw [filed, mint_of_room hlookup hroom, hnew]
    rfl
  · obtain ⟨victim, holdest⟩ := exists_oldest_inserted hlookup scan seq
    have hother : victim ≠ proxy := by
      rintro rfl
      obtain ⟨entry, hentry, hleast⟩ := least_of_oldest holdest
      cases hentry.symm.trans hnew
      simp only [timely, filed, hlookup, Option.map_none, Option.isSome_none, Bool.false_or,
        hfull, Nat.lt_irrefl, decide_false, List.any_eq_true, decide_eq_true_eq] at htimely
      obtain ⟨found, hmem, hlt⟩ := htimely
      obtain ⟨other, hfound⟩ := Table.mem_values.mp hmem
      have hne : other ≠ victim := by
        rintro rfl
        cases hfound.symm.trans hlookup
      have hle : seq.toNat ≤ found.lastUseSeq.toNat :=
        hleast other found ((AList.lookup_insert_ne hne).trans hfound)
      omega
    rw [filed, (mint_of_full hlookup hfull holdest).1, AList.lookup_erase_ne hother.symm, hnew]
    rfl

/-- An untimely newcomer is dropped, when the iteration meets it first. -/
theorem filed_mint_of_not_timely (h : registry.Bounded)
    (hlookup : registry.isolated.routes.lookup proxy = none)
    (huntimely : ¬ registry.timely (.missed proxy seq)) :
    (registry.mint .listed proxy seq).filed proxy = none := by
  simp only [timely, filed, hlookup, Option.map_none, Option.isSome_none, Bool.false_or,
    Bool.or_eq_true, decide_eq_true_eq, not_or, Nat.not_lt, List.any_eq_true, not_exists,
    not_and] at huntimely
  obtain ⟨hfull, hlater⟩ := huntimely
  have holdest : oldest .listed (registry.inserted proxy seq) = some proxy := by
    have hentries : (registry.inserted proxy seq).entries =
        ⟨proxy, ⟨registry.made, seq⟩⟩ :: registry.isolated.routes.entries :=
      AList.entries_insert_of_notMem (AList.lookup_eq_none.mp hlookup)
    show (Select.minByKey _ (registry.inserted proxy seq).entries).map Sigma.fst = some proxy
    rw [hentries, Select.minByKey_cons_of_forall]
    · rfl
    · intro entry hentry
      exact Nat.not_lt.mpr (hlater entry.2 (List.mem_map_of_mem hentry))
  rw [filed, (mint_of_full hlookup (Nat.le_antisymm h hfull) holdest).1]
  simp [AList.lookup_erase]

/-- **A step files what it returns exactly when it is timely.** -/
theorem timely_iff (h : registry.Bounded) (point : Point) :
    registry.timely point ↔ ∀ scan, registry.Files point scan := by
  constructor
  · intro htimely scan proxy session hanswer
    have hs := stepped registry point scan
    generalize step registry point scan = out at hs hanswer
    cases hs with
    | drew => cases hanswer
    | used seq hlookup =>
      cases hanswer
      rw [filed_use hlookup, filed, hlookup]
      rfl
    | passed => cases hanswer
    | refused => cases hanswer
    | minted hlookup =>
      cases hanswer
      exact filed_mint_of_timely h hlookup htimely scan
  · intro hfiles
    by_contra huntimely
    cases point with
    | entered => exact huntimely rfl
    | drawn => exact huntimely rfl
    | missed proxy seq =>
      cases hlookup : registry.isolated.routes.lookup proxy with
      | some entry => simp [timely, filed, hlookup] at huntimely
      | none =>
        have hstep : step registry (.missed proxy seq) .listed =
            (registry.mint .listed proxy seq, .inr ⟨proxy, some registry.made⟩) := by
          simp [step, hlookup]
        have hfiled := hfiles .listed proxy registry.made (by rw [hstep])
        rw [hstep, filed_mint_of_not_timely h hlookup huntimely] at hfiled
        cases hfiled

end Steps

/-! ## Whole runs -/

/-- A move does not drop a route. -/
def spares (proxy : Str) (w : World) (m : Move) : Bool :=
  !(w.shared.filed proxy).isSome || ((w.move method undisturbed m).shared.filed proxy).isSome

/-- What holds of the registry in every run. -/
structure Kept (maxRoutes : Nat) (registry : Registry) : Prop where
  bounded : registry.Bounded
  cap : registry.isolated.maxRoutes = max maxRoutes 1

section Runs

variable {maxRoutes : Nat} {w : World} {proxy : Str} {session : Nat}

theorem Kept.step {registry : Registry} (h : Kept maxRoutes registry) (point : Point)
    (scan : Scan) : Kept maxRoutes (step registry point scan).1 := by
  refine ⟨bounded_step h.bounded point scan, ?_⟩
  have hs := stepped registry point scan
  generalize Registry.step registry point scan = out at hs
  cases hs <;> exact h.cap

/-- A move leaves the registry as it is, or steps a call. -/
theorem shared_move (w : World) (m : Move) :
    (w.move method undisturbed m).shared = w.shared ∨
      ∃ point scan, (w.move method undisturbed m).shared = (step w.shared point scan).1 := by
  cases m with
  | call request => exact Or.inl rfl
  | act action => exact action.elim
  | step i scan =>
    simp only [Calls.World.move]
    split
    · rename_i point hpoint
      exact Or.inr ⟨point, scan, rfl⟩
    · exact Or.inl rfl

theorem Kept.move (h : Kept maxRoutes w.shared) (m : Move) :
    Kept maxRoutes (w.move method undisturbed m).shared := by
  rcases shared_move w m with hsame | ⟨point, scan, hstep⟩
  · rwa [hsame]
  · rw [hstep]
    exact h.step point scan

theorem Kept.run (h : Kept maxRoutes w.shared) (moves : List Move) :
    Kept maxRoutes (w.run method undisturbed moves).shared :=
  Calls.World.run_induction (fun w => Kept maxRoutes w.shared) (fun _ m h _ => h.move m)
    (Calls.World.meets_true w moves) h

theorem kept_reach (maxRoutes : Nat) (moves : List Move) :
    Kept maxRoutes (reach maxRoutes moves).shared :=
  Kept.run ⟨Nat.zero_le _, rfl⟩ moves

/-- A route that is not dropped keeps its session. -/
theorem filed_move (h : Kept maxRoutes w.shared) (hfiled : w.shared.filed proxy = some session)
    {m : Move} (hspared : spares proxy w m) :
    (w.move method undisturbed m).shared.filed proxy = some session := by
  simp only [spares, hfiled, Option.isSome_some, Bool.not_true, Bool.false_or] at hspared
  rcases shared_move w m with hsame | ⟨point, scan, hstep⟩
  · rwa [hsame]
  · rw [hstep] at hspared ⊢
    rcases filed_step h.bounded point scan hfiled with hkept | hdropped
    · exact hkept
    · rw [hdropped] at hspared
      cases hspared

theorem filed_run (h : Kept maxRoutes w.shared) (hfiled : w.shared.filed proxy = some session)
    {moves : List Move} (hspared : w.meets method undisturbed (spares proxy) moves) :
    (w.run method undisturbed moves).shared.filed proxy = some session := by
  have hinv := Calls.World.run_induction
    (fun w => Kept maxRoutes w.shared ∧ w.shared.filed proxy = some session)
    (fun _ m h hspared => ⟨h.1.move m, filed_move h.1 h.2 hspared⟩) hspared ⟨h, hfiled⟩
  exact hinv.2

/-- **What a session is filed under.** In every run at most `max_routes` routes are on file;
`existing` changes none of them; a call returns what is on file under its label at the end of its
section exactly when it is timely; and after a timely call that returned a session every call for
the label returns the same one, for as long as the label is not dropped. -/
theorem minted_is_filed (maxRoutes : Nat) (moves : List Move) :
    (reach maxRoutes moves).shared.isolated.routes.entries.length ≤ max maxRoutes 1 ∧
    ∀ (i : Nat) (point : Point), (reach maxRoutes moves).calls[i]? = some (.inl point) →
      ((reach maxRoutes moves).shared.timely point ↔
        ∀ scan, (reach maxRoutes moves).shared.Files point scan) ∧
      (point.ofExisting → ∀ scan other,
        (step (reach maxRoutes moves).shared point scan).1.filed other =
          (reach maxRoutes moves).shared.filed other) ∧
      ((reach maxRoutes moves).shared.timely point → ∀ scan proxy session,
        (step (reach maxRoutes moves).shared point scan).2 = .inr ⟨proxy, some session⟩ →
        ∀ later : List Move, ((reach maxRoutes moves).move method undisturbed (.step i scan)).meets
          method undisturbed (spares proxy) later →
        ∀ (j : Nat) (second : Point) (scan' : Scan) (answer : Option Nat),
          (reach maxRoutes (moves ++ .step i scan :: later)).calls[j]? = some (.inl second) →
          (step (reach maxRoutes (moves ++ .step i scan :: later)).shared second scan').2 =
            .inr ⟨proxy, answer⟩ →
          answer = some session) := by
  have hkept := kept_reach maxRoutes moves
  have hbounded := hkept.bounded
  rw [Bounded, hkept.cap] at hbounded
  refine ⟨hbounded, fun i point hpoint => ⟨timely_iff hkept.bounded point,
    fun hexisting scan other => filed_step_existing hexisting scan other, ?_⟩⟩
  intro htimely scan proxy session hanswer later hspared j second scan' answer hsecond hanswer'
  have hfiled := (timely_iff hkept.bounded point).mp htimely scan proxy session hanswer
  have hmove : ((reach maxRoutes moves).move method undisturbed (.step i scan)).shared =
      (step (reach maxRoutes moves).shared point scan).1 := by
    simp only [Calls.World.move, hpoint]
    rfl
  have hrun : reach maxRoutes (moves ++ .step i scan :: later) =
      ((reach maxRoutes moves).move method undisturbed (.step i scan)).run method undisturbed
        later := by
    simp [reach, Calls.World.run, List.foldl_append]
  rw [← hmove] at hfiled
  rw [hrun] at hanswer'
  exact answer_of_filed hanswer' (filed_run (hkept.move _) hfiled hspared)

/-- One call is made to its end, and the next one up to where it has found nothing on file. -/
def inTurn : List Move :=
  [.call ⟨true, ['p']⟩, .step 0 .listed, .step 0 .listed, .step 0 .listed,
    .call ⟨true, ['q']⟩, .step 1 .listed, .step 1 .listed]

/-- The first session is filed, there being room; so is the second, in whose place the first one
goes. -/
theorem first_is_filed :
    (reach 1 (inTurn.take 3)).shared.Files (.missed ['p'] 0) .listed ∧
      (reach 1 inTurn).shared.filed ['p'] = some 1 ∧
      (reach 1 inTurn).shared.Files (.missed ['q'] 1) .listed :=
  ⟨((minted_is_filed 1 (inTurn.take 3)).2 0 (.missed ['p'] 0) rfl).1.mp (by decide) .listed,
    rfl, ((minted_is_filed 1 inTurn).2 1 (.missed ['q'] 1) rfl).1.mp (by decide) .listed⟩

/-- One call draws its number, then another is made from its beginning to its end, then the first
one looks at the routes. -/
def overtaken : List Move :=
  [.call ⟨true, ['p']⟩, .step 0 .listed,
    .call ⟨true, ['q']⟩, .step 1 .listed, .step 1 .listed, .step 1 .listed, .step 0 .listed]

/-- The overtaken call mints a session, files it, drops it and returns it. -/
theorem newcomer_evicted :
    (reach 1 overtaken).calls[0]? = some (.inl (.missed ['p'] 0)) ∧
    (step (reach 1 overtaken).shared (.missed ['p'] 0) .listed).2 = .inr ⟨['p'], some 2⟩ ∧
    (step (reach 1 overtaken).shared (.missed ['p'] 0) .listed).1.filed ['p'] = none :=
  ⟨rfl, rfl, rfl⟩

/-- A session is on file under a label, or was handed out for it. -/
def Knows (w : World) (proxy : Str) (session : Nat) : Prop :=
  w.shared.filed proxy = some session ∨ .inr ⟨proxy, some session⟩ ∈ w.calls

/-- Each session was made for one label, and none of them is the base session. -/
def Owned (w : World) : Prop :=
  0 < w.shared.made ∧ ∃ owner : Nat → Str, ∀ proxy session, Knows w proxy session →
    owner session = proxy ∧ 0 < session ∧ session < w.shared.made

theorem lookup_of_evict {scan : Scan} {routes : Table Str RouteEntry} {entry : RouteEntry}
    (h : (evict scan maxRoutes routes).lookup proxy = some entry) :
    routes.lookup proxy = some entry := by
  unfold evict at h
  generalize routes.entries.length = turns at h
  induction turns generalizing routes with
  | zero => exact h
  | succ turns ih =>
    rw [evictLoop] at h
    split_ifs at h
    · exact h
    · split at h
      · exact h
      · exact (Table.lookup_erase_eq_some.mp (ih h)).2

theorem Owned.step (h : Owned w) (i : Nat) (point : Point) (scan : Scan) :
    Owned ⟨(step w.shared point scan).1, w.calls.set i (step w.shared point scan).2⟩ := by
  obtain ⟨hmade, owner, howner⟩ := h
  have hs := stepped w.shared point scan
  generalize Registry.step w.shared point scan = out at hs
  cases hs with
  | used seq hlookup =>
    refine ⟨hmade, owner, fun proxy session hknows => howner proxy session ?_⟩
    rcases hknows with hfiled | hmem
    · exact .inl ((filed_use hlookup seq proxy).symm.trans hfiled)
    · rcases List.mem_or_eq_of_mem_set hmem with hold | hnew
      · exact .inr hold
      · cases hnew
        exact .inl (congrArg _ hlookup)
  | @minted label seq hlookup =>
    refine ⟨Nat.succ_pos _, Function.update owner w.shared.made label, ?_⟩
    intro proxy session hknows
    have hcases : Knows w proxy session ∨ proxy = label ∧ session = w.shared.made := by
      rcases hknows with hfiled | hmem
      · obtain ⟨entry, hentry, rfl⟩ := Option.map_eq_some_iff.mp hfiled
        refine (Table.lookup_insert_eq_some.mp (lookup_of_evict hentry)).symm.imp ?_ ?_
        · exact fun hold => .inl (congrArg _ hold.2)
        · exact fun hnew => ⟨hnew.1, congrArg _ hnew.2⟩
      · rcases List.mem_or_eq_of_mem_set hmem with hold | hnew
        · exact .inl (.inr hold)
        · cases hnew
          exact .inr ⟨rfl, rfl⟩
    rcases hcases with hold | ⟨rfl, rfl⟩
    · obtain ⟨rfl, hpos, hlt⟩ := howner proxy session hold
      exact ⟨Function.update_of_ne hlt.ne _ _, hpos, Nat.lt_succ_of_lt hlt⟩
    · exact ⟨Function.update_self .., hmade, Nat.lt_succ_self _⟩
  | _ =>
    refine ⟨hmade, owner, fun proxy session hknows => howner proxy session ?_⟩
    exact hknows.imp_right fun hmem => (List.mem_or_eq_of_mem_set hmem).resolve_right (by simp)

/-- **No two labels share a session**, and none gets the base session, whoever calls when. -/
theorem sessions_apart (maxRoutes : Nat) (moves : List Move) :
    ∃ owner : Nat → Str, ∀ proxy session,
      .inr ⟨proxy, some session⟩ ∈ (reach maxRoutes moves).calls →
        owner session = proxy ∧ 0 < session := by
  have hmove : ∀ (w : World) (m : Move), Owned w → Owned (w.move method undisturbed m) := by
    intro w m h
    cases m with
    | call request =>
      obtain ⟨hmade, owner, howner⟩ := h
      refine ⟨hmade, owner, fun proxy session hknows => howner proxy session ?_⟩
      exact hknows.imp_right fun hmem => by simpa [Calls.World.move, method] using hmem
    | act action => exact action.elim
    | step i scan =>
      rw [Calls.World.move]
      split
      · exact h.step i _ scan
      · exact h
  have hnew : Owned ⟨new maxRoutes, []⟩ :=
    ⟨Nat.one_pos, fun _ => [], fun _ _ hknows => by simp [Knows, filed, new] at hknows⟩
  obtain ⟨-, owner, howner⟩ := Calls.World.run_induction Owned (fun w m h _ => hmove w m h)
    (Calls.World.meets_true _ moves) hnew
  exact ⟨owner, fun proxy session hmem => (howner proxy session (.inr hmem)).imp_right And.left⟩

end Runs

end Registry

end Chromulate.Http
