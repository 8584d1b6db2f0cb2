import Chromulate.Dns.Caching

/-!
# Single flight

What holds of the caching resolver at every moment of every run. `Sound` is the invariant: the
handles are counted, each lookup is driven by one poll at most, every lookup that is alive is
marked in the map, every cached outcome was filed, and every call knows where its answer is from.
A lookup is marked from its start until its outcome is filed, because it is the only one that
writes to its slot while it can be joined.
-/

namespace Chromulate.Dns

open Flights (Fleet AliveAt Registered Abandoned Counted Driven Persists)

variable {α : Type*}

/-! ## What one step can do -/

/-- The lookup that a call holds a handle to. -/
def holds : Point α ⊕ Answer α → Option Nat
  | .inl (.waiting _ i _ _) => some i
  | .inl (.resolved _ i _ _ _) => some i
  | .inl (.filing _ i _ _ _ _) => some i
  | _ => none

/-- The lookup that a call drives to its end. -/
def drives : Point α ⊕ Answer α → Option Nat
  | .inl (.resolved _ i _ _ _) => some i
  | .inl (.filing _ i _ _ _ _) => some i
  | _ => none

inductive Stepped (ttls : Ttls) (resolver : Resolver α) :
    Point α → Resolver α × (Point α ⊕ Answer α) → Prop
  | stays (point : Point α) : Stepped ttls resolver point (resolver, .inl point)
  | read (target : HostPort) :
      Stepped ttls resolver (.arriving target) (resolver, .inl (.looking target resolver.clock))
  | gone (target : HostPort) : Stepped ttls resolver (.arriving target) (resolver, .inr .cancelled)
  | hit {target : HostPort} {now : Instant} {outcome : CacheOutcome α}
      {expiresAt : Option Instant}
      (hslot : resolver.slots.entries.lookup target = some (.cached outcome expiresAt))
      (hnow : unexpired expiresAt now = true) :
      Stepped ttls resolver (.looking target now)
        (resolver, .inr (.ofOutcome target now resolver.filings.length outcome))
  | joined {target : HostPort} {now : Instant} {i : Nat}
      (hslot : resolver.slots.entries.lookup target = some (.inFlight i))
      (hup : Flights.upgrades resolver.lookups i = true) :
      Stepped ttls resolver (.looking target now)
        ({ resolver with lookups := Flights.acquire resolver.lookups i },
          .inl (.waiting target i now resolver.filings.length))
  | started {target : HostPort} {now : Instant}
      (hdead : ∀ i, resolver.slots.entries.lookup target = some (.inFlight i) →
        Flights.upgrades resolver.lookups i = false) :
      Stepped ttls resolver (.looking target now) (resolver.startLookup target now)
  | left (target : HostPort) (i : Nat) (now : Instant) (consulted : Nat) :
      Stepped ttls resolver (.waiting target i now consulted) (resolver.release i, .inr .cancelled)
  | got {target : HostPort} {i : Nat} {now : Instant} {consulted : Nat}
      {outcome : CacheOutcome α}
      (houtcome : Flights.outcomeOf resolver.lookups i = some outcome) :
      Stepped ttls resolver (.waiting target i now consulted)
        (resolver.release i, .inr (.ofOutcome target now consulted outcome))
  | resolving {target : HostPort} {i : Nat} {now : Instant} {consulted : Nat}
      (outcome : CacheOutcome α) (hnone : Flights.outcomeOf resolver.lookups i = none)
      (hfree : i ∉ resolver.settling) :
      Stepped ttls resolver (.waiting target i now consulted)
        ({ resolver with settling := i :: resolver.settling },
          .inl (.resolved target i now consulted outcome))
  | stamped (target : HostPort) (i : Nat) (now : Instant) (consulted : Nat)
      (outcome : CacheOutcome α) :
      Stepped ttls resolver (.resolved target i now consulted outcome)
        (resolver, .inl (.filing target i now consulted outcome resolver.clock))
  | filed (target : HostPort) (i : Nat) (now : Instant) (consulted : Nat)
      (outcome : CacheOutcome α) (settled : Instant) :
      Stepped ttls resolver (.filing target i now consulted outcome settled)
        ((Resolver.settle ttls resolver target i outcome settled).release i,
          .inr (.ofOutcome target now consulted outcome))

theorem stepped_consult (ttls : Ttls) (resolver : Resolver α) (target : HostPort)
    (now : Instant) :
    Stepped ttls resolver (.looking target now) (resolver.consult target now) := by
  unfold Resolver.consult
  cases hslot : resolver.slots.entries.lookup target with
  | none => exact .started (by simp [hslot])
  | some slot =>
    cases slot with
    | cached outcome expiresAt =>
      simp only
      split_ifs with hnow
      · exact .hit hslot hnow
      · exact .started (by simp [hslot])
    | inFlight i =>
      simp only
      split_ifs with hup
      · exact .joined hslot hup
      · refine .started fun j hj => ?_
        rw [hslot] at hj
        cases hj
        simpa using hup

theorem step_poll (ttls : Ttls) (resolver : Resolver α) (target : HostPort) (i : Nat)
    (now : Instant) (consulted : Nat) (inner : Option (CacheOutcome α)) :
    resolver.step ttls (.waiting target i now consulted) (.poll inner) =
      match Flights.outcomeOf resolver.lookups i with
      | some outcome => (resolver.release i, .inr (.ofOutcome target now consulted outcome))
      | none =>
        match inner with
        | some outcome =>
          if i ∈ resolver.settling then (resolver, .inl (.waiting target i now consulted))
          else ({ resolver with settling := i :: resolver.settling },
            .inl (.resolved target i now consulted outcome))
        | none => (resolver, .inl (.waiting target i now consulted)) := rfl

theorem stepped (ttls : Ttls) (resolver : Resolver α) (point : Point α) (input : Input α) :
    Stepped ttls resolver point (resolver.step ttls point input) := by
  cases point with
  | arriving target =>
    cases input with
    | proceed => exact .read target
    | poll inner => exact .stays _
    | cancel => exact .gone target
  | looking target now =>
    cases input with
    | proceed => exact stepped_consult ttls resolver target now
    | poll inner => exact .stays _
    | cancel => exact .stays _
  | waiting target i now consulted =>
    cases input with
    | proceed => exact .stays _
    | cancel => exact .left target i now consulted
    | poll inner =>
      rw [step_poll]
      cases houtcome : Flights.outcomeOf resolver.lookups i with
      | some outcome => exact .got houtcome
      | none =>
        cases inner with
        | none => exact .stays _
        | some outcome =>
          by_cases hfree : i ∈ resolver.settling
          · simpa [hfree] using Stepped.stays _
          · simpa [hfree] using Stepped.resolving outcome houtcome hfree
  | resolved target i now consulted outcome =>
    cases input with
    | proceed => exact .stamped target i now consulted outcome
    | poll inner => exact .stays _
    | cancel => exact .stays _
  | filing target i now consulted outcome settled =>
    cases input with
    | proceed => exact .filed target i now consulted outcome settled
    | poll inner => exact .stays _
    | cancel => exact .stays _

/-! ## Handles and polls -/

section Handles

variable {ttls : Ttls} {resolver : Resolver α} {point : Point α}
  {out : Resolver α × (Point α ⊕ Answer α)} {j : Nat}

theorem counted_stepped {handles : List (Option Nat)} (h : Counted resolver.lookups handles)
    (hj : handles[j]? = some (holds (.inl point))) (hstep : Stepped ttls resolver point out) :
    Counted out.1.lookups (handles.set j (holds out.2)) := by
  cases hstep with
  | stays | read | gone | hit | resolving | stamped => exact h.keep hj
  | joined hslot hup => exact h.acquire hj (h.2 _ (h.upgrades_iff.mp hup))
  | started hdead => exact h.start hj _
  | left | got => exact h.release hj
  | filed target i now consulted outcome settled => exact (h.finish outcome).release hj

theorem driven_stepped {driving : List (Option Nat)} (h : Driven resolver.settling driving)
    (hj : driving[j]? = some (drives (.inl point))) (hstep : Stepped ttls resolver point out) :
    Driven out.1.settling (driving.set j (drives out.2)) := by
  cases hstep with
  | stays | read | gone | hit | joined | started | left | got | stamped => exact h.keep hj
  | resolving outcome hnone hfree => exact h.begin hfree
  | filed target i now consulted outcome settled => exact h.done hj

end Handles

/-! ## The map -/

/-- The lookup that is marked as in flight. -/
def Slots.marker (slots : Slots α) (target : HostPort) : Option Nat :=
  match slots.entries.lookup target with
  | some (.inFlight i) => some i
  | _ => none

theorem marker_eq_some {slots : Slots α} {target : HostPort} {i : Nat} :
    slots.marker target = some i ↔ slots.entries.lookup target = some (.inFlight i) := by
  unfold Slots.marker
  split <;> simp_all

theorem lookup_sweep {slots : Slots α} {lookups : Fleet HostPort (CacheOutcome α)} {now : Instant}
    {target : HostPort} {slot : Slot α} :
    (sweep slots lookups now).entries.lookup target = some slot ↔
      slots.entries.lookup target = some slot ∧ keeps lookups now slot = true := by
  simp only [sweep, Table.lookup_retain]
  rw [Option.filter_eq_some_iff]

theorem length_sweep (slots : Slots α) (lookups : Fleet HostPort (CacheOutcome α))
    (now : Instant) :
    (sweep slots lookups now).entries.entries.length < (sweep slots lookups now).sweepAt := by
  simp only [sweep, minSweepSize]
  omega

/-- What the map, the lookups and the filings say of each other. -/
structure Coherent (resolver : Resolver α) : Prop where
  registered : Registered resolver.lookups resolver.slots.marker
  marked : ∀ target i, resolver.slots.marker target = some i →
    ∃ flight, resolver.lookups[i]? = some flight ∧ flight.key = target ∧ flight.outcome = none
  cached : ∀ target outcome expiresAt,
    resolver.slots.entries.lookup target = some (.cached outcome expiresAt) →
      ∃ i, ⟨target, i, outcome, expiresAt⟩ ∈ resolver.filings
  filed : ∀ filing ∈ resolver.filings, ∃ flight, resolver.lookups[filing.lookup]? = some flight ∧
    flight.key = filing.target ∧ flight.outcome = some filing.outcome
  bounded : resolver.slots.entries.entries.length ≤ resolver.slots.sweepAt

section Coherent

variable {resolver : Resolver α}

/-- Handles come and go. -/
theorem Coherent.handles (h : Coherent resolver) {lookups : Fleet HostPort (CacheOutcome α)}
    (hpersists : Persists resolver.lookups lookups)
    (halive : ∀ key i, AliveAt lookups key i → AliveAt resolver.lookups key i) :
    Coherent { resolver with lookups } where
  registered := h.registered.mono halive fun _ _ _ hmark => hmark
  marked target i hmark := by
    obtain ⟨flight, hget, hkey, hnone⟩ := h.marked target i hmark
    obtain ⟨next, hnext, hkey', houtcome⟩ := hpersists i flight hget
    exact ⟨next, hnext, hkey'.trans hkey, houtcome.trans hnone⟩
  cached := h.cached
  filed filing hmem := by
    obtain ⟨flight, hget, hkey, hsome⟩ := h.filed filing hmem
    obtain ⟨next, hnext, hkey', houtcome⟩ := hpersists _ flight hget
    exact ⟨next, hnext, hkey'.trans hkey, houtcome.trans hsome⟩
  bounded := h.bounded

theorem Coherent.release (h : Coherent resolver) (i : Nat) : Coherent (resolver.release i) :=
  h.handles (Flights.persists_release _ i) fun _ _ hi => Flights.aliveAt_of_release hi

/-- The map as a new lookup finds it: swept if it was full, with room for one more. -/
def Resolver.swept (resolver : Resolver α) (now : Instant) : Slots α :=
  if resolver.slots.sweepAt ≤ resolver.slots.entries.entries.length then
    sweep resolver.slots resolver.lookups now
  else resolver.slots

variable {now : Instant} {target : HostPort}

theorem lookup_swept {slot : Slot α} (h : (resolver.swept now).entries.lookup target = some slot) :
    resolver.slots.entries.lookup target = some slot := by
  unfold Resolver.swept at h
  split_ifs at h
  · exact (lookup_sweep.mp h).1
  · exact h

theorem marker_swept {i : Nat} (h : resolver.slots.marker target = some i)
    (hup : Flights.upgrades resolver.lookups i = true) :
    (resolver.swept now).entries.lookup target = some (.inFlight i) := by
  have hslot := marker_eq_some.mp h
  unfold Resolver.swept
  split_ifs
  · exact lookup_sweep.mpr ⟨hslot, hup⟩
  · exact hslot

theorem length_swept (resolver : Resolver α) (now : Instant) :
    (resolver.swept now).entries.entries.length < (resolver.swept now).sweepAt := by
  unfold Resolver.swept
  split_ifs with hfull
  · exact length_sweep _ _ _
  · omega

theorem Coherent.startLookup (h : Coherent resolver)
    (hdead : ∀ i, resolver.slots.entries.lookup target = some (.inFlight i) →
      Flights.upgrades resolver.lookups i = false) :
    Coherent (resolver.startLookup target now).1 := by
  have hnone : ∀ i, ¬ AliveAt resolver.lookups target i := by
    intro i hi
    have := hdead i (marker_eq_some.mp (h.registered target i hi))
    rw [hi.upgrades] at this
    cases this
  have hown : ((resolver.swept now).entries.insert target
      (.inFlight resolver.lookups.length)).lookup target =
        some (.inFlight resolver.lookups.length) := AList.lookup_insert _
  have hother : ∀ other slot, other ≠ target →
      (((resolver.swept now).entries.insert target
        (.inFlight resolver.lookups.length)).lookup other = some slot ↔
      (resolver.swept now).entries.lookup other = some slot) := by
    intro other slot hne
    rw [AList.lookup_insert_ne hne]
  have hpersists := Flights.persists_start resolver.lookups target
  refine ⟨?_, ?_, ?_, ?_, ?_⟩
  · refine h.registered.start hnone (marker_eq_some.mpr (AList.lookup_insert _)) ?_
    intro other i hne hi hmark
    exact marker_eq_some.mpr ((hother other _ hne).mpr (marker_swept hmark hi.upgrades))
  · intro other i hmark
    have hslot := marker_eq_some.mp hmark
    by_cases hne : other = target
    · subst hne
      cases hown.symm.trans hslot
      exact ⟨⟨other, 1, none⟩, by simp [Resolver.startLookup, Flights.start], rfl, rfl⟩
    · obtain ⟨flight, hget, hkey, hout⟩ := h.marked other i
        (marker_eq_some.mpr (lookup_swept ((hother other _ hne).mp hslot)))
      obtain ⟨next, hnext, hkey', houtcome⟩ := hpersists i flight hget
      exact ⟨next, hnext, hkey'.trans hkey, houtcome.trans hout⟩
  · intro other outcome expiresAt hslot
    have hne : other ≠ target := by
      rintro rfl
      cases hown.symm.trans hslot
    exact h.cached other outcome expiresAt (lookup_swept ((hother other _ hne).mp hslot))
  · intro filing hmem
    obtain ⟨flight, hget, hkey, hsome⟩ := h.filed filing hmem
    obtain ⟨next, hnext, hkey', houtcome⟩ := hpersists _ flight hget
    exact ⟨next, hnext, hkey'.trans hkey, houtcome.trans hsome⟩
  · have hlen := length_swept resolver now
    have hinsert := Table.length_insert_le (resolver.swept now).entries target
      (.inFlight resolver.lookups.length)
    exact Nat.le_trans hinsert hlen

/-- A lookup that is alive files its outcome in the slot of its target, and so in its own. -/
theorem Coherent.settle (h : Coherent resolver) (ttls : Ttls) {i : Nat}
    (halive : AliveAt resolver.lookups target i) (outcome : CacheOutcome α) (now : Instant) :
    Coherent (Resolver.settle ttls resolver target i outcome now) := by
  obtain ⟨flight, hget, hkey, hlive⟩ := id halive
  have hnone : flight.outcome = none := by
    simp only [Flights.Flight.alive, Bool.and_eq_true, Option.isNone_iff_eq_none] at hlive
    exact hlive.2
  have hself := Flights.getElem?_finish_self hget hlive outcome
  -- a slot after the sweep is the new one, or an old one of another target
  have hslots : ∀ other slot, (Resolver.settle ttls resolver target i outcome
      now).slots.entries.lookup other = some slot →
        (other = target ∧ slot = .cached outcome (Resolver.expiry ttls outcome now)) ∨
          (other ≠ target ∧ resolver.slots.entries.lookup other = some slot) := by
    intro other slot hslot
    exact Table.lookup_insert_eq_some.mp (lookup_sweep.mp hslot).1
  refine ⟨?_, ?_, ?_, ?_, Nat.le_of_lt (length_sweep _ _ _)⟩
  · refine h.registered.mono (fun _ _ hi => Flights.aliveAt_of_finish hi) ?_
    intro other k hk hmark
    have hbefore := Flights.aliveAt_of_finish hk
    have hne : other ≠ target := by
      rintro rfl
      obtain rfl : k = i := h.registered.unique hbefore halive
      obtain ⟨found, hfound, _, hfoundlive⟩ := hk
      have heq : some found = some { flight with outcome := some outcome } :=
        hfound.symm.trans hself
      cases heq
      simp [Flights.Flight.alive] at hfoundlive
    refine marker_eq_some.mpr (lookup_sweep.mpr ⟨?_, hbefore.upgrades⟩)
    rw [AList.lookup_insert_ne hne]
    exact marker_eq_some.mp hmark
  · intro other k hmark
    rcases hslots other _ (marker_eq_some.mp hmark) with ⟨_, hslot⟩ | ⟨hne, hslot⟩
    · cases hslot
    · obtain ⟨found, hfound, hfoundkey, hfoundnone⟩ :=
        h.marked other k (marker_eq_some.mpr hslot)
      have hki : k ≠ i := by
        rintro rfl
        rw [hget] at hfound
        cases hfound
        exact hne (hfoundkey.symm.trans hkey)
      exact ⟨found, Flights.getElem?_finish hfound hki outcome, hfoundkey, hfoundnone⟩
  · intro other found expiresAt hslot
    rcases hslots other _ hslot with ⟨rfl, hnew⟩ | ⟨_, hold⟩
    · cases hnew
      exact ⟨i, List.mem_append_right _ List.mem_cons_self⟩
    · obtain ⟨k, hmem⟩ := h.cached other found expiresAt hold
      exact ⟨k, List.mem_append_left _ hmem⟩
  · intro filing hmem
    rcases List.mem_append.mp hmem with hold | hnew
    · obtain ⟨found, hfound, hfoundkey, hfoundsome⟩ := h.filed filing hold
      have hki : filing.lookup ≠ i := by
        intro heq
        rw [heq, hget] at hfound
        cases hfound
        rw [hnone] at hfoundsome
        cases hfoundsome
      exact ⟨found, Flights.getElem?_finish hfound hki outcome, hfoundkey, hfoundsome⟩
    · rw [List.mem_singleton.mp hnew]
      exact ⟨_, hself, hkey, rfl⟩

end Coherent

/-! ## Calls -/

/-- Where the answer of a call is from: it was filed after the call looked at the map, or it was
fresh at the call's reading of the clock. -/
def From (resolver : Resolver α) (target : HostPort) (now : Instant) (consulted : Nat)
    (outcome : CacheOutcome α) : Prop :=
  ∃ n filing, resolver.filings[n]? = some filing ∧ filing.target = target ∧
    filing.outcome = outcome ∧ (consulted ≤ n ∨ unexpired filing.expiresAt now = true)

/-- What each call knows. -/
def Informed (resolver : Resolver α) : Point α ⊕ Answer α → Prop
  | .inl (.waiting target i now consulted) => consulted ≤ resolver.filings.length ∧
      ∃ flight, resolver.lookups[i]? = some flight ∧ flight.key = target ∧
        ∀ outcome, flight.outcome = some outcome → From resolver target now consulted outcome
  | .inl (.resolved target i _ consulted _) => consulted ≤ resolver.filings.length ∧
      ∃ flight, resolver.lookups[i]? = some flight ∧ flight.key = target ∧ flight.outcome = none
  | .inl (.filing target i _ consulted _ _) => consulted ≤ resolver.filings.length ∧
      ∃ flight, resolver.lookups[i]? = some flight ∧ flight.key = target ∧ flight.outcome = none
  | .inr (.answered target now consulted result) =>
    ∃ outcome, result = outcome.result target.host ∧ From resolver target now consulted outcome
  | _ => True

section Calls

variable {resolver later : Resolver α}

theorem From.mono {target : HostPort} {now : Instant} {consulted : Nat}
    {outcome : CacheOutcome α} (h : From resolver target now consulted outcome)
    (hfilings : resolver.filings <+: later.filings) : From later target now consulted outcome := by
  obtain ⟨n, filing, hget, hrest⟩ := h
  obtain ⟨more, hmore⟩ := hfilings
  refine ⟨n, filing, ?_, hrest⟩
  rw [← hmore, List.getElem?_append_left (List.getElem?_eq_some_iff.mp hget).1, hget]

/-- Nothing is filed, and no lookup changes but for its handles. -/
structure Kept (resolver later : Resolver α) : Prop where
  filings : later.filings = resolver.filings
  persists : Persists resolver.lookups later.lookups

theorem Informed.of_kept {call : Point α ⊕ Answer α} (hcall : Informed resolver call)
    (h : Kept resolver later) : Informed later call := by
  have hfrom : ∀ {target now consulted outcome}, From resolver target now consulted outcome →
      From later target now consulted outcome := by
    intro target now consulted outcome hfrom
    exact hfrom.mono (h.filings ▸ List.prefix_rfl)
  match call with
  | .inl (.waiting target i now consulted) =>
    obtain ⟨hle, flight, hget, hkey, hout⟩ := hcall
    obtain ⟨next, hnext, hkey', houtcome⟩ := h.persists i flight hget
    refine ⟨h.filings ▸ hle, next, hnext, hkey'.trans hkey, fun outcome hsome => ?_⟩
    exact hfrom (hout outcome (houtcome.symm.trans hsome))
  | .inl (.resolved target i now consulted outcome) =>
    obtain ⟨hle, flight, hget, hkey, hout⟩ := hcall
    obtain ⟨next, hnext, hkey', houtcome⟩ := h.persists i flight hget
    exact ⟨h.filings ▸ hle, next, hnext, hkey'.trans hkey, houtcome.trans hout⟩
  | .inl (.filing target i now consulted outcome settled) =>
    obtain ⟨hle, flight, hget, hkey, hout⟩ := hcall
    obtain ⟨next, hnext, hkey', houtcome⟩ := h.persists i flight hget
    exact ⟨h.filings ▸ hle, next, hnext, hkey'.trans hkey, houtcome.trans hout⟩
  | .inl (.arriving target) => exact trivial
  | .inl (.looking target now) => exact trivial
  | .inr (.answered target now consulted result) =>
    obtain ⟨outcome, hresult, hout⟩ := hcall
    exact ⟨outcome, hresult, hfrom hout⟩
  | .inr .cancelled => exact trivial

theorem Kept.release (resolver : Resolver α) (i : Nat) : Kept resolver (resolver.release i) :=
  ⟨rfl, Flights.persists_release _ i⟩

/-- An outcome is filed: the calls that wait for it have it from there, and no other call drives
the same lookup. -/
theorem Informed.settle (ttls : Ttls) {target : HostPort} {i : Nat}
    (halive : AliveAt resolver.lookups target i) (outcome : CacheOutcome α) (now : Instant)
    {call : Point α ⊕ Answer α} (hcall : Informed resolver call) (hother : drives call ≠ some i) :
    Informed (Resolver.settle ttls resolver target i outcome now) call := by
  obtain ⟨flight, hget, hkey, hlive⟩ := halive
  have hprefix : resolver.filings <+:
      (Resolver.settle ttls resolver target i outcome now).filings := List.prefix_append _ _
  match call with
  | .inl (.waiting target' k now' consulted) =>
    obtain ⟨hle, found, hfound, hfoundkey, hout⟩ := hcall
    refine ⟨hle.trans hprefix.length_le, ?_⟩
    by_cases hk : k = i
    · subst hk
      rw [hget] at hfound
      cases hfound
      refine ⟨_, Flights.getElem?_finish_self hget hlive outcome, hfoundkey, ?_⟩
      rintro given hgiven
      cases hgiven
      refine ⟨resolver.filings.length, ⟨target, k, outcome, Resolver.expiry ttls outcome now⟩,
        ?_, hkey.symm.trans hfoundkey, rfl, .inl hle⟩
      simp [Resolver.settle]
    · refine ⟨found, Flights.getElem?_finish hfound hk outcome, hfoundkey, fun given hgiven => ?_⟩
      exact (hout given hgiven).mono hprefix
  | .inl (.resolved target' k now' consulted given) =>
    obtain ⟨hle, found, hfound, hrest⟩ := hcall
    have hk : k ≠ i := fun heq => hother (congrArg some heq)
    exact ⟨hle.trans hprefix.length_le, found, Flights.getElem?_finish hfound hk outcome, hrest⟩
  | .inl (.filing target' k now' consulted given settled) =>
    obtain ⟨hle, found, hfound, hrest⟩ := hcall
    have hk : k ≠ i := fun heq => hother (congrArg some heq)
    exact ⟨hle.trans hprefix.length_le, found, Flights.getElem?_finish hfound hk outcome, hrest⟩
  | .inl (.arriving target') => exact trivial
  | .inl (.looking target' now') => exact trivial
  | .inr (.answered target' now' consulted result) =>
    obtain ⟨given, hresult, hout⟩ := hcall
    exact ⟨given, hresult, hout.mono hprefix⟩
  | .inr .cancelled => exact trivial

end Calls

/-! ## Every run -/

/-- The invariant. -/
structure Sound (w : World α) : Prop where
  counted : Counted w.shared.lookups (w.calls.map holds)
  driven : Driven w.shared.settling (w.calls.map drives)
  coherent : Coherent w.shared
  informed : ∀ call ∈ w.calls, Informed w.shared call

section Runs

variable {ttls : Ttls} {w : World α} {j : Nat} {point : Point α}
  {out : Resolver α × (Point α ⊕ Answer α)}

variable {i : Nat}

/-- The call that drives a lookup holds it, so the lookup is alive. -/
theorem Sound.aliveAt (h : Sound w) {target : HostPort} {now settled : Instant} {consulted : Nat}
    {outcome : CacheOutcome α}
    (hmem : .inl (.filing target i now consulted outcome settled) ∈ w.calls) :
    AliveAt w.shared.lookups target i := by
  obtain ⟨_, flight, hget, hkey, hnone⟩ := h.informed _ hmem
  have hup : Flights.upgrades w.shared.lookups i = true :=
    h.counted.upgrades_iff.mpr (List.mem_map.mpr ⟨_, hmem, rfl⟩)
  refine ⟨flight, hget, hkey, ?_⟩
  rw [Flights.upgrades, hget] at hup
  rw [Flights.Flight.alive, hnone]
  simpa using hup

theorem coherent_stepped (h : Sound w) (hmem : .inl point ∈ w.calls)
    (hstep : Stepped ttls w.shared point out) : Coherent out.1 := by
  cases hstep with
  | stays | read | gone | hit => exact h.coherent
  | joined hslot hup =>
    exact h.coherent.handles (Flights.persists_acquire _ _)
      fun _ _ hi => Flights.aliveAt_of_acquire hup hi
  | started hdead => exact h.coherent.startLookup hdead
  | left target i now consulted => exact h.coherent.release i
  | got houtcome => exact h.coherent.release _
  | resolving outcome hnone hfree =>
    exact ⟨h.coherent.registered, h.coherent.marked, h.coherent.cached, h.coherent.filed,
      h.coherent.bounded⟩
  | stamped target i now consulted outcome => exact h.coherent
  | filed target i now consulted outcome settled =>
    exact (h.coherent.settle ttls (h.aliveAt hmem) outcome settled).release i

/-- What the stepping call knows afterwards. -/
theorem informed_own (h : Sound w) (hmem : .inl point ∈ w.calls)
    (hstep : Stepped ttls w.shared point out) : Informed out.1 out.2 := by
  have hown := h.informed _ hmem
  cases hstep with
  | stays => exact hown
  | read target => exact trivial
  | gone target => exact trivial
  | hit hslot hnow =>
    obtain ⟨i, hfiling⟩ := h.coherent.cached _ _ _ hslot
    obtain ⟨n, hn⟩ := List.mem_iff_getElem?.mp hfiling
    exact ⟨_, rfl, n, _, hn, rfl, rfl, .inr hnow⟩
  | joined hslot hup =>
    obtain ⟨flight, hget, hkey, hnone⟩ := h.coherent.marked _ _ (marker_eq_some.mpr hslot)
    obtain ⟨next, hnext, hkey', houtcome⟩ := Flights.persists_acquire _ _ _ flight hget
    refine ⟨Nat.le_refl _, next, hnext, hkey'.trans hkey, fun outcome hsome => ?_⟩
    rw [houtcome, hnone] at hsome
    cases hsome
  | @started target now hdead =>
    refine ⟨Nat.le_refl _, ⟨target, 1, none⟩, ?_, rfl, fun outcome hsome => ?_⟩
    · simp [Resolver.startLookup, Flights.start]
    · cases hsome
  | left target i now consulted => exact trivial
  | @got target i now consulted outcome houtcome =>
    obtain ⟨_, flight, hget, hkey, hout⟩ := hown
    have hsome : flight.outcome = some outcome := by
      simpa [Flights.outcomeOf, hget] using houtcome
    exact ⟨outcome, rfl, (hout outcome hsome).mono List.prefix_rfl⟩
  | @resolving target i now consulted outcome hnone hfree =>
    obtain ⟨hle, flight, hget, hkey, _⟩ := hown
    exact ⟨hle, flight, hget, hkey, by simpa [Flights.outcomeOf, hget] using hnone⟩
  | stamped target i now consulted outcome => exact hown
  | filed target i now consulted outcome settled =>
    refine ⟨outcome, rfl, w.shared.filings.length,
      ⟨target, i, outcome, Resolver.expiry ttls outcome settled⟩, ?_, rfl, rfl, .inl hown.1⟩
    simp [Resolver.settle, Resolver.release]

/-- What the other calls know afterwards. -/
theorem informed_other (h : Sound w) (hj : w.calls[j]? = some (.inl point))
    (hstep : Stepped ttls w.shared point out) {k : Nat} {call : Point α ⊕ Answer α}
    (hk : w.calls[k]? = some call) (hne : k ≠ j) : Informed out.1 call := by
  have hcall := h.informed call (List.mem_of_getElem? hk)
  cases hstep with
  | stays | read | gone | hit | stamped => exact hcall
  | joined hslot hup => exact hcall.of_kept ⟨rfl, Flights.persists_acquire _ _⟩
  | started hdead => exact hcall.of_kept ⟨rfl, Flights.persists_start _ _⟩
  | left target i now consulted => exact hcall.of_kept (.release _ i)
  | got houtcome => exact hcall.of_kept (.release _ _)
  | resolving outcome hnone hfree => exact hcall.of_kept ⟨rfl, Persists.refl _⟩
  | filed target i now consulted outcome settled =>
    have hother : drives call ≠ some i := by
      intro hdrives
      refine hne (h.driven.2 k j i ?_ ?_)
      · rw [List.getElem?_map, hk, Option.map_some, hdrives]
      · rw [List.getElem?_map, hj]
        rfl
    have halive := h.aliveAt (List.mem_of_getElem? hj)
    exact (hcall.settle ttls halive outcome settled hother).of_kept (.release _ i)

theorem Sound.step (h : Sound w) (hj : w.calls[j]? = some (.inl point))
    (hstep : Stepped ttls w.shared point out) : Sound ⟨out.1, w.calls.set j out.2⟩ := by
  have hmem := List.mem_of_getElem? hj
  refine ⟨?_, ?_, coherent_stepped h hmem hstep, ?_⟩
  · rw [List.map_set]
    exact counted_stepped h.counted (by simp [hj]) hstep
  · rw [List.map_set]
    exact driven_stepped h.driven (by simp [hj]) hstep
  · intro call hcall
    obtain ⟨k, hk⟩ := List.mem_iff_getElem?.mp hcall
    rw [List.getElem?_set] at hk
    split_ifs at hk with heq hlt
    · cases hk
      exact informed_own h hmem hstep
    · exact informed_other h hj hstep hk (Ne.symm heq)

theorem Sound.move (h : Sound w) (m : Move α) :
    Sound (w.move (method ttls) Resolver.advance m) := by
  cases m with
  | call target =>
    refine ⟨?_, ?_, h.coherent, ?_⟩
    · simpa [Calls.World.move, method, holds] using h.counted.append
    · simpa [Calls.World.move, method, drives] using h.driven.append
    · intro call hcall
      rcases List.mem_append.mp hcall with hold | hnew
      · exact h.informed call hold
      · rw [List.mem_singleton.mp hnew]
        exact trivial
  | act span =>
    have hkept : Kept w.shared (w.shared.advance span) := ⟨rfl, Persists.refl _⟩
    refine ⟨h.counted, h.driven, ?_, fun call hcall => (h.informed call hcall).of_kept hkept⟩
    exact ⟨h.coherent.registered, h.coherent.marked, h.coherent.cached, h.coherent.filed,
      h.coherent.bounded⟩
  | step j input =>
    by_cases hpoint : ∃ point, w.calls[j]? = some (.inl point)
    · obtain ⟨point, hj⟩ := hpoint
      rw [Calls.World.move_step hj]
      exact h.step hj (stepped ttls w.shared point input)
    · rw [Calls.World.move_step_of_not (not_exists.mp hpoint)]
      exact h

theorem sound_new (clock : Instant) : Sound (⟨.new clock, []⟩ : World α) := by
  refine ⟨⟨?_, ?_⟩, ⟨?_, ?_⟩, ⟨?_, ?_, ?_, ?_, ?_⟩, ?_⟩
  · simp [Resolver.new]
  · simp
  · simp
  · simp
  · rintro key i ⟨flight, hget, _⟩
    simp [Resolver.new] at hget
  · simp [Resolver.new, Slots.marker]
  · simp [Resolver.new]
  · simp [Resolver.new]
  · simp [Resolver.new, minSweepSize]
  · simp

theorem sound_reach (ttls : Ttls) (clock : Instant) (moves : List (Move α)) :
    Sound (reach ttls clock moves) :=
  Calls.World.run_induction Sound (fun _ m h _ => h.move m) (Calls.World.meets_true _ moves)
    (sound_new clock)

/-- A lookup that no call holds is never joined again, and files nothing. -/
theorem abandoned_stepped (h : Sound w) (hj : w.calls[j]? = some (.inl point))
    (hstep : Stepped ttls w.shared point out) (hi : Abandoned w.shared.lookups i) :
    Abandoned out.1.lookups i ∧
      ∃ new, out.1.filings = w.shared.filings ++ new ∧ ∀ filing ∈ new, filing.lookup ≠ i := by
  have hsame : ∃ new, w.shared.filings = w.shared.filings ++ new ∧
      ∀ filing ∈ new, filing.lookup ≠ i := ⟨[], by simp⟩
  cases hstep with
  | stays | read | gone | hit | resolving | stamped => exact ⟨hi, hsame⟩
  | joined hslot hup => exact ⟨hi.acquire hup, hsame⟩
  | started hdead => exact ⟨hi.start _, hsame⟩
  | left target k now consulted => exact ⟨hi.release k, hsame⟩
  | got houtcome => exact ⟨hi.release _, hsame⟩
  | filed target k now consulted outcome settled =>
    have halive := h.aliveAt (List.mem_of_getElem? hj)
    have hne : k ≠ i := by
      rintro rfl
      have hup := halive.upgrades
      rw [hi.not_upgrades] at hup
      cases hup
    refine ⟨(hi.finish k outcome).release k,
      [⟨target, k, outcome, Resolver.expiry ttls outcome settled⟩], rfl, ?_⟩
    intro filing hmem
    rw [List.mem_singleton.mp hmem]
    exact hne

theorem abandoned_move (ttls : Ttls) (h : Sound w) (hi : Abandoned w.shared.lookups i)
    (m : Move α) :
    Abandoned (w.move (method ttls) Resolver.advance m).shared.lookups i ∧
      ∃ new, (w.move (method ttls) Resolver.advance m).shared.filings =
          w.shared.filings ++ new ∧
        ∀ filing ∈ new, filing.lookup ≠ i := by
  cases m with
  | call target => exact ⟨hi, [], by simp [Calls.World.move], by simp⟩
  | act span => exact ⟨hi, [], by simp [Calls.World.move, Resolver.advance], by simp⟩
  | step j input =>
    by_cases hpoint : ∃ point, w.calls[j]? = some (.inl point)
    · obtain ⟨point, hj⟩ := hpoint
      rw [Calls.World.move_step hj]
      exact abandoned_stepped h hj (stepped ttls w.shared point input) hi
    · rw [Calls.World.move_step_of_not (not_exists.mp hpoint)]
      exact ⟨hi, [], by simp, by simp⟩

theorem abandoned_run (h : Sound w) (hi : Abandoned w.shared.lookups i) (moves : List (Move α)) :
    ∃ new, (w.run (method ttls) Resolver.advance moves).shared.filings =
        w.shared.filings ++ new ∧
      ∀ filing ∈ new, filing.lookup ≠ i := by
  induction moves generalizing w with
  | nil => exact ⟨[], by simp [Calls.World.run], by simp⟩
  | cons m moves ih =>
    obtain ⟨hnext, new, hnew, hfree⟩ := abandoned_move ttls h hi m
    obtain ⟨rest, hrest, hfree'⟩ := ih (h.move m) hnext
    refine ⟨new ++ rest, ?_, ?_⟩
    · rw [← List.append_assoc, ← hnew]
      exact hrest
    · intro filing hmem
      rcases List.mem_append.mp hmem with hold | hlater
      · exact hfree filing hold
      · exact hfree' filing hlater

/-- The inner lookup at `i` has not answered yet and is not dropped. -/
def Resolver.Pending (resolver : Resolver α) (target : HostPort) (i : Nat) : Prop :=
  AliveAt resolver.lookups target i ∧ i ∉ resolver.settling

/-- **Single flight.** At every moment of every run: at most one inner lookup for each target is
pending; every answer that was given is the outcome of a lookup for its target, filed after the
call consulted the map or with an expiry after the call's reading of the clock; a lookup that no
call holds any more never files anything later; and the map has at most `sweep_at` entries. -/
theorem single_flight (ttls : Ttls) (clock : Instant) (moves later : List (Move α)) :
    let resolver := (reach ttls clock moves).shared
    (∀ target i j, resolver.Pending target i → resolver.Pending target j → i = j) ∧
    (∀ target now consulted result,
      .answered target now consulted result ∈ (reach ttls clock moves).returned →
        ∃ (n : Nat) (filing : Filing α) (flight : Flights.Flight HostPort (CacheOutcome α)),
          resolver.filings[n]? = some filing ∧ filing.target = target ∧
          resolver.lookups[filing.lookup]? = some flight ∧ flight.key = target ∧
          flight.outcome = some filing.outcome ∧ result = filing.outcome.result target.host ∧
          (consulted ≤ n ∨ unexpired filing.expiresAt now = true)) ∧
    (∀ i, i < resolver.lookups.length →
      (∀ call ∈ (reach ttls clock moves).calls, holds call ≠ some i) →
        ∃ new, (reach ttls clock (moves ++ later)).shared.filings = resolver.filings ++ new ∧
          ∀ filing ∈ new, filing.lookup ≠ i) ∧
    resolver.slots.entries.entries.length ≤ resolver.slots.sweepAt := by
  have hsound := sound_reach ttls clock moves
  refine ⟨?_, ?_, ?_, hsound.coherent.bounded⟩
  · intro target i j hi hj
    exact hsound.coherent.registered.unique hi.1 hj.1
  · intro target now consulted result hmem
    obtain ⟨outcome, hresult, n, filing, hget, htarget, houtcome, hwhen⟩ :=
      hsound.informed _ (Calls.World.mem_returned.mp hmem)
    obtain ⟨flight, hflight, hkey, hsome⟩ :=
      hsound.coherent.filed filing (List.mem_of_getElem? hget)
    subst houtcome
    exact ⟨n, filing, flight, hget, htarget, hflight, hkey.trans htarget, hsome, hresult, hwhen⟩
  · intro i hi hheld
    have habandoned : Abandoned (reach ttls clock moves).shared.lookups i := by
      have hget := List.getElem?_eq_getElem hi
      refine ⟨_, hget, ?_⟩
      rw [hsound.counted.1 i _ hget]
      refine List.count_eq_zero.mpr fun hmem => ?_
      obtain ⟨call, hcall, hholds⟩ := List.mem_map.mp hmem
      exact hheld call hcall hholds
    rw [reach, Calls.World.run_append]
    exact abandoned_run hsound habandoned later

end Runs

end Chromulate.Dns
