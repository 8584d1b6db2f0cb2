import Chromulate.Lib.Calls
import Mathlib.Data.List.Nodup
import Mathlib.Algebra.Ring.Nat

/-!
# Proxy providers

`chromulate-proxy/src/provider.rs`. A call of `next` is a sequence of atomic steps, an advance of
the cursor or a read of one flag each, and any number of calls may be under way at once, with
`report_failure` in between. What had been reported when a call began, and when it returned, is
recorded with its answer.

The contract of `ProxyProvider`: `next` has nothing only when every member has been reported, and
hands out nothing that was reported before it was asked. `RoundRobin` keeps it, `contract_kept`,
in runs in which no call advances the cursor between two advances of another and the cursor does
not wrap inside a call, and for pools without equal members.

A call that is overtaken sees some members twice and others not at all, and of equal members only
the first is ever marked (`contract_broken`).
-/

namespace Chromulate.Proxy

variable {α : Type}

/-- The answer of a call of `next`, with what had been reported when the call began and when it
returned. -/
structure Outcome (α : Type) where
  proxy : Option α
  since : List α
  upto : List α
  deriving DecidableEq

/-! ## Members and their flags -/

/-- The pool and the flags of `RoundRobin` and `Random`, and everything reported so far. -/
structure Members (α : Type) where
  pool : List α
  failed : List Bool
  reported : List α

namespace Members

def new (pool : List α) : Members α := ⟨pool, pool.map fun _ => false, []⟩

/-- A read of one flag. -/
def isFailed (members : Members α) (i : Nat) : Bool := members.failed.getD i true

/-- Some member's flag is not set. -/
def spares (members : Members α) : Bool := members.failed.any (!·)

/-- What a call that ends now has to say. -/
def answer (members : Members α) (proxy : Option α) (since : List α) : Outcome α :=
  ⟨proxy, since, members.reported⟩

variable [DecidableEq α]

def indexOf (members : Members α) (proxy : α) : Option Nat :=
  members.pool.findIdx? fun candidate => candidate = proxy

def reportFailure (members : Members α) (proxy : α) : Members α :=
  { members with
    failed := match members.indexOf proxy with
      | some i => members.failed.set i true
      | none => members.failed
    reported := members.reported ++ [proxy] }

/-- Flags stand for reports. -/
structure Sound (members : Members α) : Prop where
  length : members.failed.length = members.pool.length
  reported : ∀ i proxy, members.pool[i]? = some proxy → members.isFailed i →
    proxy ∈ members.reported
  flagged : ∀ i proxy, proxy ∈ members.reported → members.indexOf proxy = some i →
    members.isFailed i

theorem sound_new (pool : List α) : (Members.new pool).Sound where
  length := by simp [new]
  reported i proxy hpool hfailed := by
    have hi : i < pool.length := (List.getElem?_eq_some_iff.mp hpool).1
    simp [isFailed, new, hi] at hfailed
  flagged _ _ h := by simp [new] at h

variable {members : Members α}

theorem isFailed_reportFailure {proxy : α} {i : Nat} :
    (members.reportFailure proxy).isFailed i ↔
      members.isFailed i ∨ members.indexOf proxy = some i := by
  unfold reportFailure isFailed
  cases hindex : members.indexOf proxy with
  | none => simp
  | some k =>
    by_cases hk : k = i
    · subst hk
      simp [List.getD_eq_getElem?_getD, List.getElem?_set]
      split <;> simp
    · simp [List.getD_eq_getElem?_getD, hk]

theorem Sound.reportFailure (h : members.Sound) (proxy : α) :
    (members.reportFailure proxy).Sound where
  length := by
    have hlength := h.length
    unfold Members.reportFailure
    split <;> simpa using hlength
  reported i member hpool hfailed := by
    show member ∈ members.reported ++ [proxy]
    rw [isFailed_reportFailure] at hfailed
    rcases hfailed with hold | hnew
    · exact List.mem_append_left _ (h.reported i member hpool hold)
    · obtain ⟨hi, heq, -⟩ := List.findIdx?_eq_some_iff_getElem.mp hnew
      have hmember : member = proxy := by
        have hget := List.getElem?_eq_getElem hi
        simp only [decide_eq_true_eq] at heq
        exact (Option.some.inj (hpool.symm.trans hget)).trans heq
      simp [hmember]
  flagged i member hmem hindex := by
    rw [isFailed_reportFailure]
    rcases List.mem_append.mp hmem with hold | hnew
    · exact Or.inl (h.flagged i member hold hindex)
    · rw [List.mem_singleton.mp hnew] at hindex
      exact Or.inr hindex

theorem indexOf_of_nodup (hnodup : members.pool.Nodup) {i : Nat} {proxy : α}
    (h : members.pool[i]? = some proxy) : members.indexOf proxy = some i := by
  obtain ⟨hi, hget⟩ := List.getElem?_eq_some_iff.mp h
  refine List.findIdx?_eq_some_iff_getElem.mpr ⟨hi, by simpa using hget, fun j hj => ?_⟩
  intro heq
  have hsame : members.pool[j] = members.pool[i] := by simpa [hget] using heq
  exact absurd (hnodup.getElem_inj_iff.mp hsame) (Nat.ne_of_lt hj)

theorem Sound.reported_of_all (h : members.Sound)
    (hall : ∀ i < members.pool.length, members.isFailed i) :
    ∀ proxy ∈ members.pool, proxy ∈ members.reported := by
  intro proxy hmem
  obtain ⟨i, hi, hget⟩ := List.mem_iff_getElem.mp hmem
  exact h.reported i proxy (by rw [List.getElem?_eq_getElem hi, hget]) (hall i hi)

end Members

/-! ## `RoundRobin` -/

/-- `RoundRobin`, on a machine with words of `bits` bits. -/
structure RoundRobin (α : Type) (bits : Nat) where
  members : Members α
  cursor : BitVec bits

/-- A call of `RoundRobin::next` under way: the turns of the loop that are left, and in the middle
of one the member whose flag is read next. -/
structure Turning (α : Type) where
  left : Nat
  index : Option Nat
  since : List α
  deriving DecidableEq

namespace RoundRobin

variable {bits : Nat}

/-- `RoundRobin::new`, with the cursor anywhere. -/
def start (pool : List α) (cursor : BitVec bits) : RoundRobin α bits := ⟨.new pool, cursor⟩

def size (robin : RoundRobin α bits) : Nat := robin.members.pool.length

def next : Calls.Method (RoundRobin α bits) (Turning α) Unit Unit (Outcome α) where
  enter robin _ :=
    if robin.size = 0 then .inr (robin.members.answer none robin.members.reported)
    else .inl ⟨robin.size, none, robin.members.reported⟩
  step robin call _ :=
    match call.index with
    | none =>
      ({ robin with cursor := robin.cursor + 1 },
        .inl { call with index := some (robin.cursor.toNat % robin.size) })
    | some i =>
      if !robin.members.isFailed i then
        (robin, .inr (robin.members.answer robin.members.pool[i]? call.since))
      else if call.left ≤ 1 then (robin, .inr (robin.members.answer none call.since))
      else (robin, .inl { call with left := call.left - 1, index := none })

def reportFailure [DecidableEq α] (robin : RoundRobin α bits) (proxy : α) : RoundRobin α bits :=
  { robin with members := robin.members.reportFailure proxy }

/-- The object and its calls. -/
abbrev World (α : Type) (bits : Nat) := Calls.World (RoundRobin α bits) (Turning α) (Outcome α)

/-- A provider nobody has called yet. -/
def world (pool : List α) (cursor : BitVec bits) : World α bits := ⟨start pool cursor, []⟩

/-- A call that has not advanced the cursor yet, or has returned. -/
def atRest (size : Nat) : Turning α ⊕ Outcome α → Bool
  | .inl call => call.left = size && call.index.isNone
  | .inr _ => true

/-- The cursor has not just wrapped, or wraps where the pool begins again. -/
def inStep (robin : RoundRobin α bits) : Bool :=
  robin.cursor ≠ 0 || 2 ^ bits % robin.size = 0

/-- An advance that comes upon no other call half done, and does not follow a wrap in its own. -/
def undisturbed (w : World α bits) : Calls.Move Unit Unit α → Bool
  | .step i _ =>
    match w.calls[i]? with
    | some (.inl ⟨left, none, _⟩) =>
      (w.calls.eraseIdx i).all (atRest w.shared.size) &&
        (left = w.shared.size || w.shared.inStep)
    | _ => true
  | _ => true

/-! ### Going back from the cursor -/

/-- The place `back` places before `i`, going round. -/
def stepBack (size i back : Nat) : Nat := (i + size - back) % size

variable {i left : Nat} {robin : RoundRobin α bits} {since pool : List α} {call : Turning α}
  {input : Unit}

theorem stepBack_eq {size back : Nat} (hi : i < size) (hback : back ≤ size) :
    stepBack size i back = if back ≤ i then i - back else i + size - back := by
  unfold stepBack
  split_ifs with h
  · rw [show i + size - back = i - back + size by omega, Nat.add_mod_right,
      Nat.mod_eq_of_lt (by omega)]
  · exact Nat.mod_eq_of_lt (by omega)

theorem stepBack_succ {size r back : Nat} (hr : r < size) (hback : back < size) :
    stepBack size r (back + 1) = stepBack size (stepBack size r 1) back := by
  have hone : stepBack size r 1 < size := Nat.mod_lt _ (by omega)
  rw [stepBack_eq hr hback, stepBack_eq hone (by omega), stepBack_eq hr (by omega)]
  split_ifs <;> omega

theorem exists_stepBack {size j : Nat} (hi : i < size) (hj : j < size) :
    ∃ back < size, stepBack size i back = j := by
  refine ⟨if j ≤ i then i - j else i + size - j, by split_ifs <;> omega, ?_⟩
  rw [stepBack_eq hi (by split_ifs <;> omega)]
  split_ifs <;> omega

theorem toNat_advance (cursor : BitVec bits) :
    (cursor + 1).toNat = (cursor.toNat + 1) % 2 ^ bits := by
  simp [BitVec.toNat_add]

/-- After an advance that is in step the place it gave is the one right behind. -/
theorem stepBack_advance (hsize : 0 < robin.size)
    (h : inStep { robin with cursor := robin.cursor + 1 }) :
    robin.cursor.toNat % robin.size =
      stepBack robin.size ((robin.cursor + 1).toNat % robin.size) 1 := by
  have hwrap : (robin.cursor + 1).toNat % robin.size = (robin.cursor.toNat + 1) % robin.size := by
    simp only [inStep, ne_eq, Bool.or_eq_true, decide_eq_true_eq] at h
    rw [toNat_advance]
    rcases h with hne | hdvd
    · have hne : robin.cursor.toNat + 1 ≠ 2 ^ bits := by
        intro heq
        refine hne (BitVec.eq_of_toNat_eq ?_)
        rw [toNat_advance, heq, Nat.mod_self]
        rfl
      have hlt : robin.cursor.toNat + 1 < 2 ^ bits := by
        have hword := robin.cursor.isLt
        omega
      rw [Nat.mod_eq_of_lt hlt]
    · exact Nat.mod_mod_of_dvd _ (Nat.dvd_of_mod_eq_zero hdvd)
  rw [hwrap, stepBack, Nat.add_sub_assoc hsize, Nat.mod_add_mod,
    show robin.cursor.toNat + 1 + (robin.size - 1) = robin.cursor.toNat + robin.size by omega,
    Nat.add_mod_right]

theorem step_members (robin : RoundRobin α bits) (call : Turning α) (input : Unit) :
    (next.step robin call input).1.members = robin.members := by
  simp only [next]
  split
  · rfl
  · split_ifs <;> rfl

/-! ### Fairness: what is handed out had not been reported -/

/-- What a call began with stays reported, and is not what it hands out. -/
def Fair (robin : RoundRobin α bits) : Turning α ⊕ Outcome α → Prop
  | .inl call => ∀ proxy ∈ call.since, proxy ∈ robin.members.reported
  | .inr outcome => ∀ proxy, outcome.proxy = some proxy → proxy ∉ outcome.since

theorem fair_enter (robin : RoundRobin α bits) : robin.Fair (next.enter robin ()) := by
  simp only [next]
  split_ifs
  · intro proxy hget
    cases hget
  · exact fun proxy hmem => hmem

theorem fair_mono {robin' : RoundRobin α bits} {call : Turning α ⊕ Outcome α}
    (hgrow : robin.members.reported ⊆ robin'.members.reported) (h : robin.Fair call) :
    robin'.Fair call := by
  cases call with
  | inl call => exact fun proxy hmem => hgrow (h proxy hmem)
  | inr outcome => exact h

/-! ### Thoroughness: nothing is found only when there is nothing -/

/-- The members a call has passed over are the ones right behind, as long as the cursor is in
step. -/
def Thorough (robin : RoundRobin α bits) : Turning α ⊕ Outcome α → Prop
  | .inl ⟨left, none, _⟩ => 0 < left ∧ left ≤ robin.size ∧ (left = robin.size ∨ robin.inStep →
      ∀ back, 0 < back → back ≤ robin.size - left →
        robin.members.isFailed (stepBack robin.size (robin.cursor.toNat % robin.size) back))
  | .inl ⟨left, some i, _⟩ => 0 < left ∧ left ≤ robin.size ∧ i < robin.size ∧
      (robin.inStep → i = stepBack robin.size (robin.cursor.toNat % robin.size) 1) ∧
      ∀ back, 0 < back → back ≤ robin.size - left →
        robin.members.isFailed (stepBack robin.size i back)
  | .inr outcome => outcome.proxy = none → ∀ proxy ∈ robin.members.pool, proxy ∈ outcome.upto

theorem thorough_enter (robin : RoundRobin α bits) : robin.Thorough (next.enter robin ()) := by
  simp only [next]
  split_ifs with hsize
  · intro _ proxy hmem
    have hempty : robin.members.pool = [] := List.length_eq_zero_iff.mp hsize
    simp [hempty] at hmem
  · exact ⟨by omega, le_refl _, fun _ back hpos hback => by omega⟩

theorem thorough_of_atRest {call : Turning α ⊕ Outcome α} (hrest : atRest robin.size call)
    (cursor : BitVec bits) (h : robin.Thorough call) :
    Thorough { robin with cursor := cursor } call := by
  cases call with
  | inr outcome => exact h
  | inl call =>
    obtain ⟨left, index, since⟩ := call
    simp only [atRest, Bool.and_eq_true, decide_eq_true_eq, Option.isNone_iff_eq_none] at hrest
    obtain ⟨rfl, rfl⟩ := hrest
    exact ⟨h.1, h.2.1, fun _ back hpos hback => by
      simp only [size] at hback; omega⟩

/-- An advance: the members behind the cursor are behind the place it gives. -/
theorem thorough_advance (h : robin.Thorough (.inl ⟨left, none, since⟩))
    (hstep : left = robin.size ∨ robin.inStep) : Thorough { robin with cursor := robin.cursor + 1 }
      (.inl ⟨left, some (robin.cursor.toNat % robin.size), since⟩) := by
  obtain ⟨hpos, hle, hbehind⟩ := h
  have hsize : 0 < robin.size := by omega
  exact ⟨hpos, hle, Nat.mod_lt _ hsize, fun hin => stepBack_advance hsize hin, hbehind hstep⟩

/-- A flag found set: the place read joins the ones behind. -/
theorem thorough_pass (h : robin.Thorough (.inl ⟨left, some i, since⟩))
    (hflag : robin.members.isFailed i) (hleft : 1 < left) :
    robin.Thorough (.inl ⟨left - 1, none, since⟩) := by
  obtain ⟨-, hle, -, hlast, hbehind⟩ := h
  refine ⟨by omega, by omega, fun hin back hpos hback => ?_⟩
  have hi := hlast (hin.resolve_left (by omega))
  have hr : robin.cursor.toNat % robin.size < robin.size := Nat.mod_lt _ (by omega)
  obtain ⟨further, rfl⟩ : ∃ further, back = further + 1 := ⟨back - 1, by omega⟩
  rw [stepBack_succ hr (by omega), ← hi]
  rcases Nat.eq_zero_or_pos further with rfl | hfurther
  · have hilt : i < robin.size := by rw [hi]; exact Nat.mod_lt _ (by omega)
    rwa [stepBack_eq hilt (by omega), if_pos (Nat.zero_le _), Nat.sub_zero]
  · exact hbehind further hfurther (by omega)

theorem thorough_exhausted (h : robin.Thorough (.inl ⟨left, some i, since⟩))
    (hflag : robin.members.isFailed i) (hleft : left ≤ 1) :
    ∀ j < robin.size, robin.members.isFailed j := by
  obtain ⟨hpos, hle, hi, -, hbehind⟩ := h
  intro j hj
  obtain ⟨back, hback, rfl⟩ := exists_stepBack hi hj
  rcases Nat.eq_zero_or_pos back with rfl | hback'
  · rwa [stepBack_eq hi (by omega), if_pos (Nat.zero_le _), Nat.sub_zero]
  · exact hbehind back hback' (by omega)

theorem undisturbed_advance {w : World α bits} (hcall : w.calls[i]? = some (.inl call))
    (hindex : call.index = none) (h : undisturbed w (.step i ())) :
    (∀ j other, w.calls[j]? = some other → j ≠ i → atRest w.shared.size other) ∧
      (call.left = w.shared.size ∨ w.shared.inStep) := by
  obtain ⟨left, index, since⟩ := call
  cases hindex
  simp only [undisturbed, hcall, Bool.and_eq_true, Bool.or_eq_true, decide_eq_true_eq,
    List.all_eq_true] at h
  refine ⟨fun j other hother hne => h.1 other ?_, h.2⟩
  exact List.mem_eraseIdx_iff_getElem?.mpr ⟨j, hne, hother⟩

theorem thorough_other {w : World α bits} {j : Nat} {other : Turning α ⊕ Outcome α}
    (hcall : w.calls[i]? = some (.inl call)) (hother : w.calls[j]? = some other) (hne : j ≠ i)
    (h : w.shared.Thorough other) (hcond : undisturbed w (.step i input)) :
    Thorough (next.step w.shared call input).1 other := by
  cases hindex : call.index with
  | none =>
    have hrest := (undisturbed_advance hcall hindex hcond).1 j other hother hne
    simp only [next, hindex]
    exact thorough_of_atRest hrest _ h
  | some k =>
    have hsame : (next.step w.shared call input).1 = w.shared := by
      simp only [next, hindex]
      split_ifs <;> rfl
    rw [hsame]
    exact h

variable [DecidableEq α]

theorem thorough_step (hsound : robin.members.Sound) (h : robin.Thorough (.inl call))
    (hstep : call.index = none → call.left = robin.size ∨ robin.inStep) :
    Thorough (next.step robin call input).1 (next.step robin call input).2 := by
  obtain ⟨left, index, since⟩ := call
  cases index with
  | none => exact thorough_advance h (hstep rfl)
  | some i =>
    simp only [next]
    split_ifs with hflag hleft
    · intro hnone
      obtain ⟨-, -, hi, -⟩ := h
      simp [Members.answer, show i < robin.members.pool.length from hi] at hnone
    · have hflag : robin.members.isFailed i := by simpa using hflag
      exact fun _ => hsound.reported_of_all (thorough_exhausted h hflag hleft)
    · have hflag : robin.members.isFailed i := by simpa using hflag
      exact thorough_pass h hflag (by omega)

/-- A member whose flag is not set has not been reported, in a pool without equal members. -/
theorem notMem_reported {members : Members α} (hsound : members.Sound) (hnodup : members.pool.Nodup)
    {proxy : α} (hget : members.pool[i]? = some proxy) (hflag : members.isFailed i = false) :
    proxy ∉ members.reported := by
  intro hmem
  have hset := hsound.flagged i proxy hmem (Members.indexOf_of_nodup hnodup hget)
  simp [hflag] at hset

theorem fair_step (hsound : robin.members.Sound) (hnodup : robin.members.pool.Nodup)
    (h : robin.Fair (.inl call)) :
    Fair (next.step robin call input).1 (next.step robin call input).2 := by
  simp only [next]
  split
  · exact h
  · rename_i i _
    split_ifs with hflag hleft
    · intro proxy hget hmem
      have hflag : robin.members.isFailed i = false := by simpa using hflag
      exact notMem_reported hsound hnodup hget hflag (h proxy hmem)
    · intro proxy hget
      cases hget
    · exact h

/-! ### Whole runs -/

/-- What the object keeps. -/
def Kept (pool : List α) (robin : RoundRobin α bits) : Prop :=
  robin.members.Sound ∧ robin.members.pool = pool

theorem kept_step (h : Kept pool robin) (call : Turning α) (input : Unit) :
    Kept pool (next.step robin call input).1 := by
  unfold Kept
  rw [step_members]
  exact h

theorem kept_report (h : Kept pool robin) (proxy : α) : Kept pool (robin.reportFailure proxy) :=
  ⟨h.1.reportFailure proxy, h.2⟩

theorem kept_start (pool : List α) (cursor : BitVec bits) : Kept pool (start pool cursor) :=
  ⟨Members.sound_new pool, rfl⟩

/-- Whatever the schedule, nothing reported before a call is handed out by it. -/
theorem fair_run (hnodup : pool.Nodup) (cursor : BitVec bits)
    (moves : List (Calls.Move Unit Unit α)) {outcome : Outcome α}
    (hmem : outcome ∈ ((world pool cursor).run next reportFailure moves).returned) :
    ∀ proxy, outcome.proxy = some proxy → proxy ∉ outcome.since := by
  refine (Calls.World.run_rule (Kept pool) Fair (fun robin _ _ => fair_enter robin) ?_ ?_ ?_
    (Calls.World.meets_true (world pool cursor) moves) (kept_start pool cursor) ?_).2 _
    (Calls.World.mem_returned.mp hmem)
  · intro w i call input hkept _ hfair _
    exact ⟨kept_step hkept call input, fair_step hkept.1 (hkept.2 ▸ hnodup) hfair⟩
  · intro w i j call input other _ _ _ _ hfair _
    exact fair_mono (by rw [step_members]; exact List.Subset.refl _) hfair
  · intro robin proxy hkept
    exact ⟨kept_report hkept proxy, fun call hfair =>
      fair_mono (List.subset_append_left _ _) hfair⟩
  · intro call hcall
    cases hcall

theorem thorough_report {call : Turning α ⊕ Outcome α} (h : robin.Thorough call) (proxy : α) :
    (robin.reportFailure proxy).Thorough call := by
  have hflags : ∀ {i}, robin.members.isFailed i → (robin.reportFailure proxy).members.isFailed i :=
    fun h => Members.isFailed_reportFailure.mpr (Or.inl h)
  match call, h with
  | .inr outcome, h => exact h
  | .inl ⟨left, none, since⟩, ⟨hpos, hle, hbehind⟩ =>
    exact ⟨hpos, hle, fun hin back hback hback' => hflags (hbehind hin back hback hback')⟩
  | .inl ⟨left, some i, since⟩, ⟨hpos, hle, hi, hlast, hbehind⟩ =>
    exact ⟨hpos, hle, hi, hlast, fun back hback hback' => hflags (hbehind back hback hback')⟩

/-- In an undisturbed run a call finds nothing only when there is nothing. -/
theorem thorough_run {cursor : BitVec bits} {moves : List (Calls.Move Unit Unit α)}
    (hmeets : (world pool cursor).meets next reportFailure undisturbed moves) {outcome : Outcome α}
    (hmem : outcome ∈ ((world pool cursor).run next reportFailure moves).returned)
    (hnone : outcome.proxy = none) : ∀ proxy ∈ pool, proxy ∈ outcome.upto := by
  have hrun := Calls.World.run_rule (Kept pool) Thorough (fun robin _ _ => thorough_enter robin)
    ?own ?other ?between hmeets (kept_start pool cursor) ?start
  case own =>
    intro w i call input hkept hcall hthorough hcond
    refine ⟨kept_step hkept call input, thorough_step hkept.1 hthorough fun hindex => ?_⟩
    exact (undisturbed_advance hcall hindex hcond).2
  case other =>
    intro w i j call input other _ hcall hother hne hthorough hcond
    exact thorough_other hcall hother hne hthorough hcond
  case between =>
    intro robin proxy hkept
    exact ⟨kept_report hkept proxy, fun call h => thorough_report h proxy⟩
  case start =>
    intro call hcall
    cases hcall
  have hpool := hrun.1.2
  rw [← hpool]
  exact hrun.2 _ (Calls.World.mem_returned.mp hmem) hnone

/-- **The contract.** From every cursor: calls that are not disturbed find nothing only when every
member has been reported, and of a pool without equal members no call hands out what had been
reported before it began, however the calls overlap. -/
theorem contract_kept (pool : List α) (cursor : BitVec bits)
    (moves : List (Calls.Move Unit Unit α)) :
    ((world pool cursor).meets next reportFailure undisturbed moves →
      ∀ outcome ∈ ((world pool cursor).run next reportFailure moves).returned,
        outcome.proxy = none → ∀ proxy ∈ pool, proxy ∈ outcome.upto) ∧
    (pool.Nodup →
      ∀ outcome ∈ ((world pool cursor).run next reportFailure moves).returned,
        ∀ proxy, outcome.proxy = some proxy → proxy ∉ outcome.since) :=
  ⟨fun hmeets _ hmem hnone => thorough_run hmeets hmem hnone,
    fun hnodup _ hmem => fair_run hnodup cursor moves hmem⟩

/-- A member is reported before a call, which hands out the other; and with that one reported too
the next call finds nothing. -/
theorem contract_kept_pair :
    let moves : List (Calls.Move Unit Unit String) :=
      [.act "b", .call (), .step 0 (), .step 0 (), .step 0 (), .step 0 (), .act "a", .call (),
        .step 1 (), .step 1 (), .step 1 (), .step 1 ()]
    ((world ["a", "b"] (3#64)).run next reportFailure moves).returned =
        [⟨some "a", ["b"], ["b"]⟩, ⟨none, ["b", "a"], ["b", "a"]⟩] ∧
      "a" ∉ ["b"] ∧ ∀ proxy ∈ ["a", "b"], proxy ∈ ["b", "a"] := by
  intro moves
  have hrun : ((world ["a", "b"] (3#64)).run next reportFailure moves).returned =
      [⟨some "a", ["b"], ["b"]⟩, ⟨none, ["b", "a"], ["b", "a"]⟩] := by decide
  have h := contract_kept ["a", "b"] (3#64) moves
  rw [hrun] at h
  exact ⟨hrun, h.2 (by decide) _ List.mem_cons_self "a" rfl,
    h.1 (by decide) _ (List.mem_cons_of_mem _ List.mem_cons_self) rfl⟩

/-- A call that is overtaken meets the failed member twice; so does one that runs across the wrap of
the cursor; and of equal members the second is handed out after the report. -/
theorem contract_broken :
    ((world ["a", "b"] (0#64)).run next reportFailure
        [.act "a", .call (), .call (), .step 0 (), .step 0 (), .step 1 (), .step 1 (), .step 0 (),
          .step 0 ()]).returned = [⟨none, ["a"], ["a"]⟩, ⟨some "b", ["a"], ["a"]⟩] ∧
      ((world ["a", "b", "c"] (-1#64)).run next reportFailure
        [.act "a", .act "b", .call (), .step 0 (), .step 0 (), .step 0 (), .step 0 (), .step 0 (),
          .step 0 ()]).returned = [⟨none, ["a", "b"], ["a", "b"]⟩] ∧
      ((world ["a", "a"] (0#64)).run next reportFailure
        [.act "a", .call (), .step 0 (), .step 0 (), .step 0 (), .step 0 ()]).returned =
          [⟨some "a", ["a"], ["a"]⟩] := by
  decide

end RoundRobin

end Chromulate.Proxy
