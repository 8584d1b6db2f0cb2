import Mathlib.Data.List.Basic

/-!
# Shared futures

Futures that several callers wait on at once. A future is named by its position among those ever
started; it lives while a strong handle to it does, and a weak handle, which is its name, upgrades
exactly as long. Dropping the last strong handle of a future that has not finished drops it.

`Registered` is what single flight rests on: a register has, under the key of every future that is
alive, a weak handle to it. Then no two of one key are alive (`Registered.unique`). `Counted` says
that the strong handles are those the callers hold.
-/

namespace Chromulate.Flights

/-- A shared future: the live handles to it, and what it gave if it was polled to its end. -/
structure Flight (κ ω : Type*) where
  key : κ
  strong : Nat
  outcome : Option ω
  deriving DecidableEq

abbrev Fleet (κ ω : Type*) := List (Flight κ ω)

variable {κ ω : Type*}

/-- Started, not finished and not dropped. -/
def Flight.alive (flight : Flight κ ω) : Bool := decide (0 < flight.strong) && flight.outcome.isNone

/-- A new future, with one handle. -/
def start (flights : Fleet κ ω) (key : κ) : Fleet κ ω := flights ++ [⟨key, 1, none⟩]

/-- Whether a weak handle upgrades. -/
def upgrades (flights : Fleet κ ω) (i : Nat) : Bool :=
  flights[i]?.any fun flight => decide (0 < flight.strong)

/-- One more handle. -/
def acquire (flights : Fleet κ ω) (i : Nat) : Fleet κ ω :=
  flights.modify i fun flight => { flight with strong := flight.strong + 1 }

/-- One handle dropped. -/
def release (flights : Fleet κ ω) (i : Nat) : Fleet κ ω :=
  flights.modify i fun flight => { flight with strong := flight.strong - 1 }

/-- A live future is polled to its end. -/
def finish (flights : Fleet κ ω) (i : Nat) (outcome : ω) : Fleet κ ω :=
  flights.modify i fun flight =>
    if flight.alive then { flight with outcome := some outcome } else flight

/-- What a future gave. -/
def outcomeOf (flights : Fleet κ ω) (i : Nat) : Option ω := flights[i]?.bind Flight.outcome

/-! ## Which are alive -/

/-- The future at `i` is alive and is for `key`. -/
def AliveAt (flights : Fleet κ ω) (key : κ) (i : Nat) : Prop :=
  ∃ flight, flights[i]? = some flight ∧ flight.key = key ∧ flight.alive = true

instance [DecidableEq κ] (flights : Fleet κ ω) (key : κ) (i : Nat) :
    Decidable (AliveAt flights key i) :=
  match h : flights[i]? with
  | none => .isFalse fun ⟨_, hget, _⟩ => by simp [h] at hget
  | some flight =>
    decidable_of_iff (flight.key = key ∧ flight.alive = true)
      ⟨fun halive => ⟨flight, h, halive⟩, fun ⟨found, hget, halive⟩ => by
        rw [h] at hget
        cases hget
        exact halive⟩

section Alive

variable {flights : Fleet κ ω} {key : κ} {i : Nat}

theorem AliveAt.upgrades (h : AliveAt flights key i) : upgrades flights i = true := by
  obtain ⟨flight, hget, _, halive⟩ := h
  simp only [Flight.alive, Bool.and_eq_true] at halive
  rw [Flights.upgrades, hget]
  exact halive.1

theorem aliveAt_start {new : κ} :
    AliveAt (start flights new) key i ↔
      AliveAt flights key i ∨ (key = new ∧ i = flights.length) := by
  constructor
  · rintro ⟨flight, hget, hkey, halive⟩
    rw [start, List.getElem?_append] at hget
    split_ifs at hget with hlt
    · exact .inl ⟨flight, hget, hkey, halive⟩
    · obtain ⟨hindex, rfl⟩ := List.getElem?_eq_some_iff.mp hget
      simp only [List.length_singleton] at hindex
      have hkey' : new = key := by simpa using hkey
      exact .inr ⟨hkey'.symm, by omega⟩
  · rintro (⟨flight, hget, halive⟩ | ⟨rfl, rfl⟩)
    · refine ⟨flight, ?_, halive⟩
      rw [start, List.getElem?_append_left (List.getElem?_eq_some_iff.mp hget).1, hget]
    · exact ⟨⟨key, 1, none⟩, by simp [start], rfl, rfl⟩

variable {j : Nat}

/-- A change of one future that keeps its key and does not revive it revives none. -/
theorem aliveAt_of_modify {f : Flight κ ω → Flight κ ω} (h : AliveAt (flights.modify j f) key i)
    (hkey : ∀ flight, (f flight).key = flight.key)
    (halive : ∀ flight, flights[j]? = some flight → (f flight).alive = true →
      flight.alive = true) : AliveAt flights key i := by
  obtain ⟨flight, hget, hk, ha⟩ := h
  rw [List.getElem?_modify] at hget
  obtain ⟨found, hfound, heq⟩ := Option.map_eq_some_iff.mp hget
  by_cases hj : j = i
  · rw [if_pos hj] at heq
    subst hj heq
    exact ⟨found, hfound, (hkey found).symm.trans hk, halive found hfound ha⟩
  · rw [if_neg hj] at heq
    subst heq
    exact ⟨found, hfound, hk, ha⟩

theorem aliveAt_of_release (h : AliveAt (release flights j) key i) : AliveAt flights key i := by
  refine aliveAt_of_modify h (fun _ => rfl) fun flight _ ha => ?_
  simp only [Flight.alive, Bool.and_eq_true, decide_eq_true_eq] at ha ⊢
  exact ⟨by omega, ha.2⟩

theorem aliveAt_of_finish {outcome : ω} (h : AliveAt (finish flights j outcome) key i) :
    AliveAt flights key i := by
  refine aliveAt_of_modify h (fun flight => by split_ifs <;> rfl) fun flight _ ha => ?_
  by_cases halive : flight.alive = true
  · exact halive
  · rwa [if_neg halive] at ha

theorem aliveAt_of_acquire (hup : upgrades flights j = true)
    (h : AliveAt (acquire flights j) key i) :
    AliveAt flights key i := by
  refine aliveAt_of_modify h (fun _ => rfl) fun flight hget ha => ?_
  rw [upgrades, hget] at hup
  simp only [Flight.alive, Bool.and_eq_true] at ha ⊢
  exact ⟨hup, ha.2⟩

end Alive

/-! ## Registers -/

/-- Every future that is alive is found under its key. -/
def Registered (flights : Fleet κ ω) (register : κ → Option Nat) : Prop :=
  ∀ key i, AliveAt flights key i → register key = some i

section Registered

variable {flights later : Fleet κ ω} {register next : κ → Option Nat}

/-- **Single flight.** No two futures of one key are alive. -/
theorem Registered.unique (h : Registered flights register) {key : κ} {i j : Nat}
    (hi : AliveAt flights key i) (hj : AliveAt flights key j) : i = j :=
  Option.some.inj ((h key i hi).symm.trans (h key j hj))

/-- No future is revived, and the register keeps the live ones. -/
theorem Registered.mono (h : Registered flights register)
    (halive : ∀ key i, AliveAt later key i → AliveAt flights key i)
    (hkept : ∀ key i, AliveAt later key i → register key = some i → next key = some i) :
    Registered later next :=
  fun key i hi => hkept key i hi (h key i (halive key i hi))

/-- A future is started for a key of which none is alive, and registered. -/
theorem Registered.start [DecidableEq κ] (h : Registered flights register) {new : κ}
    (hnone : ∀ i, ¬ AliveAt flights new i) (hnew : next new = some flights.length)
    (hkept : ∀ key i, key ≠ new → AliveAt flights key i → register key = some i →
      next key = some i) :
    Registered (start flights new) next := by
  intro key i hi
  rcases aliveAt_start.mp hi with hold | ⟨rfl, rfl⟩
  · have hne : key ≠ new := by
      rintro rfl
      exact hnone i hold
    exact hkept key i hne hold (h key i hold)
  · exact hnew

end Registered

/-! ## What stays -/

/-- Every future keeps its key and what it gave. -/
def Persists (flights later : Fleet κ ω) : Prop :=
  ∀ (i : Nat) (flight : Flight κ ω), flights[i]? = some flight →
    ∃ next : Flight κ ω, later[i]? = some next ∧ next.key = flight.key ∧
      next.outcome = flight.outcome

theorem Persists.refl (flights : Fleet κ ω) : Persists flights flights :=
  fun _ flight hget => ⟨flight, hget, rfl, rfl⟩

theorem persists_start (flights : Fleet κ ω) (key : κ) : Persists flights (start flights key) := by
  intro i flight hget
  refine ⟨flight, ?_, rfl, rfl⟩
  rw [start, List.getElem?_append_left (List.getElem?_eq_some_iff.mp hget).1, hget]

theorem persists_modify {flights : Fleet κ ω} {f : Flight κ ω → Flight κ ω} (j : Nat)
    (h : ∀ flight, (f flight).key = flight.key ∧ (f flight).outcome = flight.outcome) :
    Persists flights (flights.modify j f) := by
  intro i flight hget
  rw [List.getElem?_modify, hget]
  by_cases hj : j = i
  · exact ⟨f flight, by simp [hj], h flight⟩
  · exact ⟨flight, by simp [hj], rfl, rfl⟩

theorem persists_acquire (flights : Fleet κ ω) (i : Nat) : Persists flights (acquire flights i) :=
  persists_modify i fun _ => ⟨rfl, rfl⟩

theorem persists_release (flights : Fleet κ ω) (i : Nat) : Persists flights (release flights i) :=
  persists_modify i fun _ => ⟨rfl, rfl⟩

theorem getElem?_finish {flights : Fleet κ ω} {i j : Nat} {flight : Flight κ ω}
    (h : flights[j]? = some flight) (hne : j ≠ i) (outcome : ω) :
    (finish flights i outcome)[j]? = some flight := by
  rw [finish, List.getElem?_modify, h]
  simp [Ne.symm hne]

theorem getElem?_finish_self {flights : Fleet κ ω} {i : Nat} {flight : Flight κ ω}
    (h : flights[i]? = some flight) (halive : flight.alive = true) (outcome : ω) :
    (finish flights i outcome)[i]? = some { flight with outcome := some outcome } := by
  rw [finish, List.getElem?_modify, h]
  simp [halive]

/-- No handle to the future at `i` is left. -/
def Abandoned (flights : Fleet κ ω) (i : Nat) : Prop :=
  ∃ flight, flights[i]? = some flight ∧ flight.strong = 0

section Abandoned

variable {flights : Fleet κ ω} {i j : Nat}

theorem Abandoned.not_upgrades (h : Abandoned flights i) : upgrades flights i = false := by
  obtain ⟨flight, hget, hzero⟩ := h
  simp [upgrades, hget, hzero]

theorem Abandoned.start (h : Abandoned flights i) (key : κ) : Abandoned (start flights key) i := by
  obtain ⟨flight, hget, hzero⟩ := h
  refine ⟨flight, ?_, hzero⟩
  rw [Flights.start, List.getElem?_append_left (List.getElem?_eq_some_iff.mp hget).1, hget]

theorem Abandoned.modify (h : Abandoned flights i) {f : Flight κ ω → Flight κ ω}
    (hf : ∀ flight, flights[j]? = some flight → flight.strong = 0 → (f flight).strong = 0) :
    Abandoned (flights.modify j f) i := by
  obtain ⟨flight, hget, hzero⟩ := h
  by_cases hj : j = i
  · subst hj
    exact ⟨f flight, by simp [hget], hf flight hget hzero⟩
  · exact ⟨flight, by simp [hget, hj], hzero⟩

theorem Abandoned.release (h : Abandoned flights i) (j : Nat) : Abandoned (release flights j) i :=
  h.modify fun flight _ hzero => by simp [hzero]

theorem Abandoned.finish (h : Abandoned flights i) (j : Nat) (outcome : ω) :
    Abandoned (finish flights j outcome) i :=
  h.modify fun flight _ hzero => by split_ifs <;> exact hzero

theorem Abandoned.acquire (h : Abandoned flights i) (hup : upgrades flights j = true) :
    Abandoned (acquire flights j) i :=
  h.modify fun flight hget hzero => by simp [upgrades, hget, hzero] at hup

end Abandoned

/-! ## Handles -/

/-- The strong handles of every future are those in `held`, which names no other. -/
def Counted (flights : Fleet κ ω) (held : List (Option Nat)) : Prop :=
  (∀ i flight, flights[i]? = some flight → flight.strong = held.count (some i)) ∧
    ∀ i, some i ∈ held → i < flights.length

section Counted

variable {flights : Fleet κ ω} {held : List (Option Nat)} {i j : Nat}

variable {a : Option Nat}

theorem count_set {b : Option Nat} (h : held[j]? = some a) (c : Option Nat) :
    (held.set j b).count c + (if a = c then 1 else 0) =
      held.count c + (if b = c then 1 else 0) := by
  obtain ⟨hlt, hget⟩ := List.getElem?_eq_some_iff.mp h
  rw [List.count_set hlt, hget]
  by_cases hac : a = c
  · have hpos : 0 < held.count c := List.count_pos_iff.mpr (hac ▸ List.mem_of_getElem? h)
    simp only [hac, BEq.rfl, if_true, beq_iff_eq]
    omega
  · simp [hac]

theorem Counted.append (h : Counted flights held) : Counted flights (held ++ [none]) := by
  refine ⟨fun i flight hget => ?_, fun i hmem => h.2 i (by simpa using hmem)⟩
  rw [h.1 i flight hget]
  simp

theorem Counted.keep (h : Counted flights held) (hj : held[j]? = some a) :
    Counted flights (held.set j a) := by
  obtain ⟨hlt, hget⟩ := List.getElem?_eq_some_iff.mp hj
  rwa [← hget, List.set_getElem_self]

theorem Counted.modify (h : Counted flights held) {f : Flight κ ω → Flight κ ω}
    {held' : List (Option Nat)}
    (hown : ∀ flight, flights[i]? = some flight → (f flight).strong = held'.count (some i))
    (hother : ∀ k, k ≠ i → held'.count (some k) = held.count (some k))
    (hmem : ∀ k, some k ∈ held' → some k ∈ held ∨ k < flights.length) :
    Counted (flights.modify i f) held' := by
  refine ⟨fun k flight hget => ?_, fun k hk => ?_⟩
  · rw [List.getElem?_modify] at hget
    obtain ⟨found, hfound, heq⟩ := Option.map_eq_some_iff.mp hget
    by_cases hik : i = k
    · rw [if_pos hik] at heq
      subst hik heq
      exact hown found hfound
    · rw [if_neg hik] at heq
      subst heq
      rw [hother k (Ne.symm hik)]
      exact h.1 k found hfound
  · rw [List.length_modify]
    rcases hmem k hk with hold | hlt
    · exact h.2 k hold
    · exact hlt

theorem mem_of_mem_set {k : Nat} (h : some k ∈ held.set j a) : some k ∈ held ∨ a = some k := by
  rcases List.mem_or_eq_of_mem_set h with hmem | heq
  · exact .inl hmem
  · exact .inr heq.symm

theorem Counted.acquire (h : Counted flights held) (hj : held[j]? = some none)
    (hi : i < flights.length) : Counted (acquire flights i) (held.set j (some i)) := by
  refine h.modify (fun flight hget => ?_) (fun k hk => ?_) (fun k hk => ?_)
  · have hcount := count_set (b := some i) hj (some i)
    have hstrong := h.1 i flight hget
    simp only [reduceCtorEq, if_false, if_true] at hcount
    show flight.strong + 1 = _
    omega
  · have hcount := count_set (b := some i) hj (some k)
    simpa [Ne.symm hk] using hcount
  · rcases mem_of_mem_set hk with hold | heq
    · exact .inl hold
    · cases heq
      exact .inr hi

theorem Counted.release (h : Counted flights held) (hj : held[j]? = some (some i)) :
    Counted (release flights i) (held.set j none) := by
  refine h.modify (fun flight hget => ?_) (fun k hk => ?_) (fun k hk => ?_)
  · have hcount := count_set (b := none) hj (some i)
    have hstrong := h.1 i flight hget
    simp only [reduceCtorEq, if_false, if_true] at hcount
    show flight.strong - 1 = _
    omega
  · have hcount := count_set (b := none) hj (some k)
    simpa [Ne.symm hk] using hcount
  · rcases mem_of_mem_set hk with hold | heq
    · exact .inl hold
    · cases heq

theorem Counted.finish (h : Counted flights held) (outcome : ω) :
    Counted (finish flights i outcome) held := by
  refine h.modify (fun flight hget => ?_) (fun _ _ => rfl) (fun _ => .inl)
  rw [← h.1 i flight hget]
  split_ifs <;> rfl

theorem Counted.start (h : Counted flights held) (hj : held[j]? = some none) (key : κ) :
    Counted (start flights key) (held.set j (some flights.length)) := by
  have hfresh : held.count (some flights.length) = 0 := by
    refine List.count_eq_zero.mpr fun hmem => ?_
    exact absurd (h.2 _ hmem) (Nat.lt_irrefl _)
  refine ⟨fun k flight hget => ?_, fun k hk => ?_⟩
  · have hcount := count_set (b := some flights.length) hj (some k)
    rw [Flights.start, List.getElem?_append] at hget
    split_ifs at hget with hlt
    · have hne : flights.length ≠ k := Ne.symm (Nat.ne_of_lt hlt)
      rw [h.1 k flight hget]
      simpa [hne] using hcount.symm
    · obtain ⟨hindex, rfl⟩ := List.getElem?_eq_some_iff.mp hget
      simp only [List.length_singleton] at hindex
      have hk : k = flights.length := by omega
      subst hk
      simpa [hfresh] using hcount.symm
  · rw [Flights.start, List.length_append, List.length_singleton]
    rcases mem_of_mem_set hk with hold | heq
    · exact Nat.lt_succ_of_lt (h.2 k hold)
    · cases heq
      exact Nat.lt_succ_self _

/-- A weak handle upgrades exactly while a caller holds a strong one. -/
theorem Counted.upgrades_iff (h : Counted flights held) :
    upgrades flights i = true ↔ some i ∈ held := by
  cases hget : flights[i]? with
  | none =>
    have hlen := List.getElem?_eq_none_iff.mp hget
    have hnot : some i ∉ held := fun hmem => absurd (h.2 i hmem) (Nat.not_lt_of_le hlen)
    simp [upgrades, hget, hnot]
  | some flight =>
    rw [upgrades, hget, ← List.count_pos_iff, ← h.1 i flight hget]
    exact decide_eq_true_iff

end Counted

/-! ## One poll at a time -/

/-- The futures that calls drive to their end are among `settling`, each driven by one call. -/
def Driven (settling : List Nat) (driving : List (Option Nat)) : Prop :=
  (∀ j i : Nat, driving[j]? = some (some i) → i ∈ settling) ∧
    ∀ j k i : Nat, driving[j]? = some (some i) → driving[k]? = some (some i) → j = k

section Driven

variable {settling : List Nat} {driving : List (Option Nat)} {j i : Nat}

theorem getElem?_set_some {a : Option Nat} {k : Nat}
    (h : (driving.set j a)[k]? = some (some i)) :
    (k = j ∧ a = some i) ∨ (k ≠ j ∧ driving[k]? = some (some i)) := by
  rw [List.getElem?_set] at h
  by_cases hk : j = k
  · rw [if_pos hk] at h
    split_ifs at h with hlt
    exact .inl ⟨hk.symm, Option.some.inj h⟩
  · rw [if_neg hk] at h
    exact .inr ⟨Ne.symm hk, h⟩

theorem Driven.append (h : Driven settling driving) : Driven settling (driving ++ [none]) := by
  have hold : ∀ k i : Nat, (driving ++ [none])[k]? = some (some i) →
      driving[k]? = some (some i) := by
    intro k i hget
    rw [List.getElem?_append] at hget
    split_ifs at hget with hlt
    · exact hget
    · obtain ⟨hindex, hnone⟩ := List.getElem?_eq_some_iff.mp hget
      simp at hnone
  exact ⟨fun k i hget => h.1 k i (hold k i hget),
    fun k l i hk hl => h.2 k l i (hold k i hk) (hold l i hl)⟩

theorem Driven.keep (h : Driven settling driving) {a : Option Nat} (hj : driving[j]? = some a) :
    Driven settling (driving.set j a) := by
  obtain ⟨hlt, hget⟩ := List.getElem?_eq_some_iff.mp hj
  rwa [← hget, List.set_getElem_self]

theorem Driven.begin (h : Driven settling driving) (hi : i ∉ settling) :
    Driven (i :: settling) (driving.set j (some i)) := by
  refine ⟨?_, ?_⟩
  · intro k l hget
    rcases getElem?_set_some hget with ⟨_, heq⟩ | ⟨_, hold⟩
    · cases heq
      exact List.mem_cons_self
    · exact List.mem_cons_of_mem _ (h.1 k l hold)
  · intro k m l hk hm
    rcases getElem?_set_some hk with ⟨hkj, heq⟩ | ⟨_, hkold⟩ <;>
      rcases getElem?_set_some hm with ⟨hmj, heq'⟩ | ⟨_, hmold⟩
    · rw [hkj, hmj]
    · cases heq
      exact absurd (h.1 m i hmold) hi
    · cases heq'
      exact absurd (h.1 k i hkold) hi
    · exact h.2 k m l hkold hmold

theorem Driven.done (h : Driven settling driving) (hj : driving[j]? = some (some i)) :
    Driven (settling.erase i) (driving.set j none) := by
  have hold : ∀ k l, (driving.set j none)[k]? = some (some l) →
      k ≠ j ∧ driving[k]? = some (some l) := by
    intro k l hget
    rcases getElem?_set_some hget with ⟨_, heq⟩ | hold
    · cases heq
    · exact hold
  refine ⟨?_, ?_⟩
  · intro k l hget
    obtain ⟨hkj, hk⟩ := hold k l hget
    have hne : l ≠ i := by
      rintro rfl
      exact hkj (h.2 k j l hk hj)
    exact (List.mem_erase_of_ne hne).mpr (h.1 k l hk)
  · intro k m l hk hm
    exact h.2 k m l (hold k l hk).2 (hold m l hm).2

end Driven

end Chromulate.Flights
