import Chromulate.Http.ValidatorStore
import Chromulate.Lib.History

/-!
# What a validator store has left of its calls

The store of `Http/ValidatorStore`, called from one task: nothing comes between the steps of a call.
The hint is then right whenever a call begins, and a call does at once what its steps do
(`call_eq_effect`).

**Recency** (`Ordered`). `uses` is the URL whose entry a call stores, refreshes or replays. The
numbers of the entries are in the order of their last uses, as long as fewer than `2 ^ 64` have been
drawn. So a purge, which goes by the numbers, takes nothing that was used after something it leaves.

**Content** (`Change.rewrite`). What the calls say about a URL is written over its entry, one after
the other, unless a purge takes the entry.

Main result: `run_keeps`. In `newcomer_purged` the counter wraps.
-/

namespace Chromulate.Http

/-- The fields of a later answer, over those there are. -/
def Validators.overwrite (validators fields : Validators) : Validators :=
  ⟨fields.etag.or validators.etag, fields.lastModified.or validators.lastModified⟩

namespace ValidatorStore

open History (lastAt lastAt_le lastAt_concat)

/-! ## One call after the other -/

/-- The rest of a call that nobody interrupts. -/
def settle : Nat → ValidatorStore × (Point ⊕ Answer) → ValidatorStore × (Point ⊕ Answer)
  | fuel + 1, (store, .inl point) => settle fuel (store.step point)
  | _, out => out

/-- A call from beginning to end: it takes three steps at most. -/
def call (store : ValidatorStore) (op : Op) : ValidatorStore × (Point ⊕ Answer) :=
  settle 3 (store, enter op)

/-- The store has an entry for a URL. -/
def holds (store : ValidatorStore) (key : Str) : Bool := (store.entries.lookup key).isSome

/-- What a call asks of the store. -/
inductive Change where
  /-- A `200` or an `insert` with validators. -/
  | put (key : Str) (validators : Validators)
  /-- One without, a `Vary`, or a removal. -/
  | drop (key : Str)
  | clear
  /-- A `304`. -/
  | refresh (key : Str) (fields : Validators)
  /-- An unconditional `GET` or `HEAD`. -/
  | replay (key : Str)
  | nothing

def Op.change : Op → Change
  | .condition url request =>
    if isRevalidatable request.method && !isAlreadyConditional request.headers then
      .replay url.upToQuery
    else .nothing
  | .observe url method response =>
    if !isRevalidatable method then .nothing
    else if response.status = 200 then
      match (Validators.fromHeaders response.headers).filter
          fun _ => !varies response.headers with
      | some validators => .put url.upToQuery validators
      | none => .drop url.upToQuery
    else if response.status = 304 then
      if varies response.headers then .drop url.upToQuery
      else .refresh url.upToQuery ⟨usable (response.headers.get .etag),
        usable (response.headers.get .lastModified)⟩
    else .nothing
  | .insert url validators =>
    if validators.isEmpty then .drop url.upToQuery else .put url.upToQuery validators
  | .remove url => .drop url.upToQuery
  | .clear => .clear

/-- The URL whose entry a call stores, refreshes or replays. -/
def uses (store : ValidatorStore) (op : Op) : Option Str :=
  match op.change with
  | .put key _ => some key
  | .refresh key _ | .replay key => if store.holds key then some key else none
  | _ => none

/-- One more call, and what it used. -/
def logged (state : ValidatorStore × List (Option Str)) (op : Op) :
    ValidatorStore × List (Option Str) :=
  ((state.1.call op).1, state.2 ++ [state.1.uses op])

/-- The store after some calls, and what each of them used. -/
def run (capacity : Nat) (ops : List Op) : ValidatorStore × List (Option Str) :=
  ops.foldl logged (withCapacity capacity, [])

/-- How many numbers a call draws. -/
def draws (store : ValidatorStore) (op : Op) : Nat :=
  match op.change with
  | .put _ _ | .refresh _ _ => 1
  | .replay key => if store.holds key then 1 else 0
  | _ => 0

/-- How many numbers some calls draw. -/
def numbersDrawn : ValidatorStore → List Op → Nat
  | _, [] => 0
  | store, op :: ops => store.draws op + numbersDrawn (store.call op).1 ops

/-- An insertion evicts a URL: the URL had an entry, or was to get it, and has none. -/
def evicts (store : ValidatorStore) (op : Op) (key : Str) : Bool :=
  match op.change with
  | .put newcomer _ => (store.holds key || newcomer = key) && !(store.call op).1.holds key
  | _ => false

/-- A URL is never evicted. -/
def spares (key : Str) : ValidatorStore → List Op → Bool
  | _, [] => true
  | store, op :: ops => !store.evicts op key && spares key (store.call op).1 ops

/-! ## What a call does -/

/-- An entry with the next number. -/
def touch (store : ValidatorStore) (key : Str) (validators : Validators) : ValidatorStore :=
  store.draw.withEntries (store.entries.insert key ⟨validators, store.seq⟩)

def counted (store : ValidatorStore) (entries : Table Str ValidatorEntry) : ValidatorStore :=
  { store with entries := entries, stored := entries.entries.length }

def filed (store : ValidatorStore) (key : Str) (validators : Validators) :
    Table Str ValidatorEntry :=
  evict store.capacity store.purgeTarget (store.entries.insert key ⟨validators, store.seq⟩)

/-- All that a call does to the store. -/
def effect (store : ValidatorStore) : Change → ValidatorStore
  | .put key validators => store.draw.counted (store.filed key validators)
  | .drop key => store.counted (store.entries.erase key)
  | .clear => store.counted ∅
  | .refresh key fields =>
    match store.entries.lookup key with
    | some entry => store.touch key (entry.validators.overwrite fields)
    | none => store.draw
  | .replay key =>
    match store.entries.lookup key with
    | some entry => store.touch key entry.validators
    | none => store
  | .nothing => store

section Call

variable {store : ValidatorStore} {key : Str} {entry : ValidatorEntry}

theorem effect_refresh_of_some (h : store.entries.lookup key = some entry) (fields : Validators) :
    store.effect (.refresh key fields) = store.touch key (entry.validators.overwrite fields) := by
  simp only [effect, h]

theorem effect_refresh_of_none (h : store.entries.lookup key = none) (fields : Validators) :
    store.effect (.refresh key fields) = store.draw := by
  simp only [effect, h]

theorem effect_replay_of_some (h : store.entries.lookup key = some entry) :
    store.effect (.replay key) = store.touch key entry.validators := by
  simp only [effect, h]

theorem effect_replay_of_none (h : store.entries.lookup key = none) :
    store.effect (.replay key) = store := by
  simp only [effect, h]

/-- The hint is the number of entries. -/
def Hint (store : ValidatorStore) : Prop := store.stored = store.entries.entries.length

theorem Hint.empty (h : store.Hint) (hzero : store.stored = 0) : store.entries = ∅ :=
  AList.ext (List.length_eq_zero_iff.mp (h.symm.trans hzero))

theorem settle_putting (store : ValidatorStore) (key : Str) (validators : Validators) :
    (settle 3 (store, .inl (.putting key validators))).1 = store.effect (.put key validators) :=
  rfl

theorem settle_removing (h : store.Hint) (key : Str) :
    (settle 3 (store, .inl (.removing key))).1 = store.effect (.drop key) := by
  by_cases hzero : store.stored = 0
  · have hempty := h.empty hzero
    have hsame : store.counted (store.entries.erase key) = store := by
      rw [counted, hempty]
      cases store
      cases hempty
      cases hzero
      rfl
    simp [settle, step, hzero, effect, hsame]
  · simp [settle, step, hzero, effect, counted, withEntries]

theorem settle_refreshing (store : ValidatorStore) (key : Str)
    (etag lastModified : Option HeaderValue) :
    (settle 3 (store, .inl (.refreshing key etag lastModified))).1 =
      store.effect (.refresh key ⟨etag, lastModified⟩) := by
  cases hlookup : store.entries.lookup key with
  | none => simp [settle, step, effect, draw, hlookup]
  | some entry =>
    simp [settle, step, effect, draw, hlookup, touch, withEntries, Validators.overwrite]

theorem call_condition (h : store.Hint) (url : Url) (request : Request) :
    store.call (.condition url request) =
      (store.effect (Op.change (.condition url request)),
        .inr (.headers (if isRevalidatable request.method && !isAlreadyConditional request.headers
          then (store.validatorsFor url).elim request.headers fun validators =>
            validators.replay request.headers
          else request.headers))) := by
  by_cases hplain : isRevalidatable request.method && !isAlreadyConditional request.headers
  · have hgoes : (!isRevalidatable request.method || isAlreadyConditional request.headers) =
        false := by
      simpa using hplain
    by_cases hzero : store.stored = 0
    · simp [call, enter, settle, step, hzero, Op.change, effect, validatorsFor, h.empty hzero,
        hplain]
    · cases hlookup : store.entries.lookup url.upToQuery with
      | none =>
        simp [call, enter, settle, step, hzero, Op.change, effect, validatorsFor, hlookup, hgoes,
          hplain]
      | some entry =>
        simp [call, enter, settle, step, hzero, Op.change, effect, validatorsFor, hlookup, hgoes,
          hplain, touch]
  · have hstays : (!isRevalidatable request.method || isAlreadyConditional request.headers) =
        true := by
      simp only [Bool.and_eq_true, Bool.not_eq_true', not_and, Bool.not_eq_false] at hplain
      cases hmethod : isRevalidatable request.method
      · rfl
      · exact hplain hmethod
    simp [call, enter, settle, step, Op.change, effect, hplain, hstays]

/-- `condition` does what the engine expects of its session. -/
theorem condition_eq_session (h : store.Hint) {session : Session}
    (hsession : session.validators = store.validatorsFor) (url : Url) (request : Request) :
    (store.call (.condition url request)).2 =
      .inr (.headers (session.condition url request)) := by
  rw [call_condition h, Session.condition, hsession]
  by_cases hskip : (request.method ≠ .get ∧ request.method ≠ .head) ∨
      isAlreadyConditional request.headers
  · rw [if_pos hskip, if_neg (by simpa [isRevalidatable, or_iff_not_imp_left] using hskip)]
  · rw [if_neg hskip, if_pos (by simpa [isRevalidatable, or_iff_not_imp_left] using hskip)]
    cases store.validatorsFor url <;> rfl

/-- **A call does at once what its steps do.** -/
theorem call_eq_effect (h : store.Hint) (op : Op) :
    (store.call op).1 = store.effect op.change := by
  cases op with
  | condition url request => rw [call_condition h]
  | remove url => exact settle_removing h _
  | clear => rfl
  | insert url validators =>
    simp only [call, enter, Op.change]
    split_ifs
    · exact settle_removing h _
    · exact settle_putting _ _ _
  | observe url method response =>
    simp only [call, enter, Op.change]
    split_ifs
    · rfl
    · cases (Validators.fromHeaders response.headers).filter fun _ => !varies response.headers with
      | some validators => exact settle_putting _ _ _
      | none => exact settle_removing h _
    · exact settle_removing h _
    · exact settle_refreshing _ _ _ _
    · rfl

end Call

/-! ## The bound -/

/-- The hint is right, and there are no more entries than the capacity. -/
structure Sound (store : ValidatorStore) : Prop where
  hint : store.Hint
  pos : 0 < store.capacity
  within : store.entries.entries.length ≤ store.capacity

section Bound

variable {store : ValidatorStore} {key : Str} {validators : Validators}

theorem purgeTarget_pos (store : ValidatorStore) : 0 < store.purgeTarget := by
  unfold purgeTarget
  omega

theorem purgeTarget_le (hpos : 0 < store.capacity) : store.purgeTarget ≤ store.capacity := by
  unfold purgeTarget
  omega

theorem filed_of_le
    (h : (store.entries.insert key ⟨validators, store.seq⟩).entries.length ≤ store.capacity) :
    store.filed key validators = store.entries.insert key ⟨validators, store.seq⟩ :=
  if_pos h

/-- Without, the purge leaves its target, and nothing it takes has a greater number than what it
leaves. -/
theorem filed_of_lt (hpos : 0 < store.capacity)
    (h : store.capacity < (store.entries.insert key ⟨validators, store.seq⟩).entries.length) :
    (store.filed key validators).entries.length = store.purgeTarget ∧
      ∀ gone x kept y, (store.touch key validators).entries.lookup gone = some x →
        (store.filed key validators).lookup gone = none →
        (store.filed key validators).lookup kept = some y →
        x.lastUseSeq.toNat ≤ y.lastUseSeq.toNat := by
  have htarget := purgeTarget_le hpos
  obtain ⟨hlength, horder⟩ := Eviction.removeAll_smallest
    (fun entry : ValidatorEntry => entry.lastUseSeq.toNat) (Nat.sub_le _ store.purgeTarget)
    (show store.filed key validators = _ from if_neg (Nat.not_le.mpr h))
  exact ⟨by omega, horder⟩

theorem length_insert_of_holds {entry : ValidatorEntry}
    (hlookup : store.entries.lookup key = some entry) (changed : ValidatorEntry) :
    (store.entries.insert key changed).entries.length = store.entries.entries.length :=
  (sameKeys_insert hlookup changed 0).length

/-- **One call keeps the bound.** -/
theorem Sound.effect (h : store.Sound) (change : Change) :
    (store.effect change).Sound ∧ (store.effect change).capacity = store.capacity := by
  have htouch : ∀ key entry validators, store.entries.lookup key = some entry →
      (store.touch key validators).Sound := by
    intro key entry validators hlookup
    have hlength := length_insert_of_holds hlookup ⟨validators, store.seq⟩
    exact ⟨h.hint.trans hlength.symm, h.pos, hlength.le.trans h.within⟩
  cases change with
  | put key validators =>
    refine ⟨⟨rfl, h.pos, ?_⟩, rfl⟩
    show (store.filed key validators).entries.length ≤ store.capacity
    by_cases hroom :
        (store.entries.insert key ⟨validators, store.seq⟩).entries.length ≤ store.capacity
    · rwa [filed_of_le hroom]
    · rw [(filed_of_lt h.pos (Nat.not_le.mp hroom)).1]
      exact purgeTarget_le h.pos
  | drop key =>
    exact ⟨⟨rfl, h.pos, ((List.kerase_sublist key _).length_le).trans h.within⟩, rfl⟩
  | clear => exact ⟨⟨rfl, h.pos, Nat.zero_le _⟩, rfl⟩
  | refresh key fields =>
    cases hlookup : store.entries.lookup key with
    | none =>
      rw [effect_refresh_of_none hlookup]
      exact ⟨⟨h.hint, h.pos, h.within⟩, rfl⟩
    | some entry =>
      rw [effect_refresh_of_some hlookup]
      exact ⟨htouch key entry _ hlookup, rfl⟩
  | replay key =>
    cases hlookup : store.entries.lookup key with
    | none =>
      rw [effect_replay_of_none hlookup]
      exact ⟨h, rfl⟩
    | some entry =>
      rw [effect_replay_of_some hlookup]
      exact ⟨htouch key entry _ hlookup, rfl⟩
  | nothing => exact ⟨h, rfl⟩

theorem Sound.run (h : store.Sound) (log : List (Option Str)) (ops : List Op) :
    (ops.foldl logged (store, log)).1.Sound ∧
      (ops.foldl logged (store, log)).1.capacity = store.capacity := by
  induction ops generalizing store log with
  | nil => exact ⟨h, rfl⟩
  | cons op ops ih =>
    obtain ⟨hsound, hcapacity⟩ := h.effect op.change
    rw [← call_eq_effect h.hint] at hsound hcapacity
    obtain ⟨hrun, hsame⟩ := ih hsound (log ++ [store.uses op])
    exact ⟨hrun, hsame.trans hcapacity⟩

theorem sound_withCapacity (capacity : Nat) : (withCapacity capacity).Sound :=
  ⟨rfl, Nat.lt_of_lt_of_le Nat.one_pos (le_max_right capacity 1), Nat.zero_le _⟩

end Bound

/-! ## Recency -/

/-- The numbers are in the order of the last uses, and the next one is greater than all. -/
structure Ordered (log : List (Option Str)) (store : ValidatorStore) : Prop where
  drawn : ∀ key entry, store.entries.lookup key = some entry →
    entry.lastUseSeq.toNat < store.seq.toNat
  order : ∀ a x b y, store.entries.lookup a = some x → store.entries.lookup b = some y →
    lastAt log a < lastAt log b → x.lastUseSeq.toNat < y.lastUseSeq.toNat

section Recency

variable {store after : ValidatorStore} {log : List (Option Str)} {key : Str}
  {validators : Validators}

theorem toNat_succ {seq : BitVec 64} (h : seq.toNat ≤ (seq + 1).toNat) :
    (seq + 1).toNat = seq.toNat + 1 := by
  have hlt := seq.isLt
  rw [BitVec.toNat_add, show (1 : BitVec 64).toNat = 1 from rfl] at h ⊢
  omega

theorem Ordered.sub (h : Ordered log store) (hseq : store.seq.toNat ≤ after.seq.toNat)
    (hsub : ∀ key entry, after.entries.lookup key = some entry →
      store.entries.lookup key = some entry) :
    Ordered log after where
  drawn key entry hkey := (h.drawn key entry (hsub key entry hkey)).trans_le hseq
  order a x b y ha hb := h.order a x b y (hsub a x ha) (hsub b y hb)

theorem Ordered.idle (h : Ordered log store) : Ordered (log ++ [none]) store where
  drawn := h.drawn
  order a x b y ha hb hlt := by
    simp only [lastAt_concat, reduceCtorEq, if_false] at hlt
    exact h.order a x b y ha hb hlt

/-- An entry that is used comes after all others. -/
theorem Ordered.touch (h : Ordered log store) (hseq : store.seq.toNat ≤ (store.seq + 1).toNat)
    (key : Str) (validators : Validators) :
    Ordered (log ++ [some key]) (store.touch key validators) where
  drawn other entry hother := by
    show entry.lastUseSeq.toNat < (store.seq + 1).toNat
    rw [toNat_succ hseq]
    rcases Table.lookup_insert_eq_some.mp hother with ⟨-, rfl⟩ | ⟨-, hbefore⟩
    · exact Nat.lt_succ_self _
    · exact Nat.lt_succ_of_lt (h.drawn other entry hbefore)
  order a x b y ha hb hlt := by
    rw [lastAt_concat, lastAt_concat] at hlt
    rcases Table.lookup_insert_eq_some.mp ha with ⟨rfl, rfl⟩ | ⟨hane, hx⟩
    · -- nothing was used later
      rw [if_pos rfl] at hlt
      have hle := lastAt_le log b
      split_ifs at hlt
      · exact absurd hlt (Nat.lt_irrefl _)
      · omega
    · rcases Table.lookup_insert_eq_some.mp hb with ⟨rfl, rfl⟩ | ⟨hbne, hy⟩
      · exact h.drawn a x hx
      · rw [if_neg (by simpa using hane.symm), if_neg (by simpa using hbne.symm)] at hlt
        exact h.order a x b y hx hy hlt

/-- **One call keeps the order**, unless the counter wraps. -/
theorem Ordered.effect (h : Ordered log store) (op : Op)
    (hseq : store.seq.toNat ≤ (store.effect op.change).seq.toNat) :
    Ordered (log ++ [store.uses op]) (store.effect op.change) := by
  unfold uses
  cases hchange : op.change with
  | put key validators =>
    rw [hchange] at hseq
    exact (h.touch hseq key validators).sub (Nat.le_refl _) fun other entry hother =>
      lookup_evict hother
  | drop key =>
    exact h.idle.sub (Nat.le_refl _) fun other entry hother =>
      (Table.lookup_erase_eq_some.mp hother).2
  | clear => exact h.idle.sub (Nat.le_refl _) fun other entry hother => by cases hother
  | refresh key fields =>
    rw [hchange] at hseq
    cases hlookup : store.entries.lookup key with
    | none =>
      rw [effect_refresh_of_none hlookup] at hseq ⊢
      simp only [holds, hlookup, Option.isSome_none, Bool.false_eq_true, if_false]
      exact h.idle.sub hseq fun other entry hother => hother
    | some entry =>
      rw [effect_refresh_of_some hlookup] at hseq ⊢
      simp only [holds, hlookup, Option.isSome_some, if_true]
      exact h.touch hseq key _
  | replay key =>
    rw [hchange] at hseq
    cases hlookup : store.entries.lookup key with
    | none =>
      rw [effect_replay_of_none hlookup]
      simp only [holds, hlookup, Option.isSome_none, Bool.false_eq_true, if_false]
      exact h.idle
    | some entry =>
      rw [effect_replay_of_some hlookup] at hseq ⊢
      simp only [holds, hlookup, Option.isSome_some, if_true]
      exact h.touch hseq key _
  | nothing => exact h.idle

theorem seq_effect (store : ValidatorStore) (op : Op) :
    (store.effect op.change).seq = store.seq + BitVec.ofNat 64 (store.draws op) := by
  unfold draws
  cases op.change with
  | put key validators => rfl
  | refresh key fields =>
    cases hlookup : store.entries.lookup key with
    | none => rw [effect_refresh_of_none hlookup]; rfl
    | some entry => rw [effect_refresh_of_some hlookup]; rfl
  | replay key =>
    cases hlookup : store.entries.lookup key with
    | none => simp [effect_replay_of_none hlookup, holds, hlookup]
    | some entry =>
      simp [effect_replay_of_some hlookup, holds, hlookup, touch, draw, withEntries]
  | _ => exact (BitVec.add_zero store.seq).symm

/-- While few enough numbers are drawn, the counter counts them. -/
theorem toNat_seq_effect {op : Op} (hfew : store.seq.toNat + store.draws op < 2 ^ 64) :
    (store.effect op.change).seq.toNat = store.seq.toNat + store.draws op := by
  rw [seq_effect, BitVec.toNat_add, BitVec.toNat_ofNat]
  omega

theorem Ordered.run (h : Ordered log store) (hsound : store.Sound) (ops : List Op)
    (hfew : store.seq.toNat + numbersDrawn store ops < 2 ^ 64) :
    Ordered (ops.foldl logged (store, log)).2 (ops.foldl logged (store, log)).1 ∧
      (ops.foldl logged (store, log)).1.seq.toNat = store.seq.toNat + numbersDrawn store ops := by
  induction ops generalizing store log with
  | nil => exact ⟨h, rfl⟩
  | cons op ops ih =>
    have hcall := call_eq_effect hsound.hint op
    rw [numbersDrawn, hcall, ← Nat.add_assoc] at hfew
    have hseq := toNat_seq_effect (Nat.lt_of_le_of_lt (Nat.le_add_right _ _) hfew)
    have hnext := h.effect op (hseq ▸ Nat.le_add_right _ _)
    rw [← hseq] at hfew
    obtain ⟨hordered, hcount⟩ := ih hnext (hsound.effect op.change).1 hfew
    rw [List.foldl_cons, logged, hcall]
    refine ⟨hordered, hcount.trans ?_⟩
    rw [hseq, numbersDrawn, hcall, Nat.add_assoc]

/-- What an insertion into a full store does. -/
structure Purged (store : ValidatorStore) (log : List (Option Str)) (op : Op) (key : Str) :
    Prop where
  length : (store.call op).1.entries.entries.length = store.purgeTarget
  newcomer : (store.call op).1.holds key
  /-- Nothing that is evicted was used after something that is kept. -/
  order : ∀ gone kept, store.evicts op gone → (store.call op).1.holds kept →
    lastAt (log ++ [store.uses op]) gone ≤ lastAt (log ++ [store.uses op]) kept

theorem Ordered.purged (h : Ordered log store) (hsound : store.Sound) {op : Op}
    (hop : op.change = .put key validators) (hnew : store.holds key = false)
    (hfull : store.entries.entries.length = store.capacity)
    (hseq : store.seq.toNat ≤ (store.seq + 1).toNat) : Purged store log op key := by
  have hcall := call_eq_effect hsound.hint op
  have hentries : (store.call op).1.entries = store.filed key validators := by
    rw [hcall, hop]
    rfl
  have hover : store.capacity <
      (store.entries.insert key ⟨validators, store.seq⟩).entries.length := by
    rw [AList.entries_insert_of_notMem (AList.lookup_eq_none.mp (by simpa [holds] using hnew)),
      List.length_cons, hfull]
    exact Nat.lt_succ_self _
  obtain ⟨hlength, hranks⟩ := filed_of_lt hsound.pos hover
  have htouch : Ordered (log ++ [some key]) (store.touch key validators) :=
    h.touch hseq key validators
  have hkept : (store.call op).1.holds key := by
    by_contra hnone
    have hgone : (store.filed key validators).lookup key = none := by
      simpa [holds, hentries] using hnone
    -- something is left, and its number is less than the newcomer's
    obtain ⟨⟨other, found⟩, hmem⟩ := List.exists_mem_of_length_pos
      (hlength ▸ store.purgeTarget_pos)
    have hother := AList.mem_lookup_iff.mpr hmem
    have hne : other ≠ key := by
      rintro rfl
      rw [hgone] at hother
      cases hother
    have hle := hranks key _ other found (AList.lookup_insert _) hgone hother
    have hbefore : store.entries.lookup other = some found :=
      (AList.lookup_insert_ne hne).symm.trans (lookup_evict hother)
    exact absurd (h.drawn other found hbefore) (Nat.not_lt.mpr hle)
  refine ⟨hentries ▸ hlength, hkept, fun gone kept hgone hkept' => ?_⟩
  simp only [evicts, hop, Bool.and_eq_true, Bool.or_eq_true, decide_eq_true_eq,
    Bool.not_eq_true'] at hgone
  obtain ⟨x, hx⟩ : ∃ x, (store.touch key validators).entries.lookup gone = some x := by
    have hne : gone ≠ key := by
      rintro rfl
      rw [hkept] at hgone
      cases hgone.2
    obtain ⟨x, hx⟩ := Option.isSome_iff_exists.mp (hgone.1.resolve_right (Ne.symm hne))
    exact ⟨x, (AList.lookup_insert_ne hne).trans hx⟩
  obtain ⟨y, hy⟩ := Option.isSome_iff_exists.mp hkept'
  rw [hentries] at hy
  have hnone : (store.filed key validators).lookup gone = none := by
    simpa [holds, hentries] using hgone.2
  have huses : store.uses op = some key := by simp [uses, hop]
  rw [huses]
  by_contra hlater
  exact absurd (htouch.order kept y gone x (lookup_evict hy) hx (Nat.not_le.mp hlater))
    (Nat.not_lt.mpr (hranks gone x kept y hx hnone hy))

end Recency

/-! ## Content -/

/-- What a call leaves of a URL's validators. -/
def Change.rewrite (key : Str) (held : Option Validators) : Change → Option Validators
  | .put url validators => if url = key then some validators else held
  | .drop url => if url = key then none else held
  | .clear => none
  | .refresh url fields => if url = key then held.map (·.overwrite fields) else held
  | _ => held

/-- A `200`, an `insert`, a `Vary` or a removal: what came before it no longer matters. -/
def Op.settles (key : Str) (op : Op) : Option (Option Validators) :=
  match op.change with
  | .put url validators => if url = key then some (some validators) else none
  | .drop url => if url = key then some none else none
  | .clear => some none
  | _ => none

/-- The fields of a `304`. -/
def Op.renews (key : Str) (op : Op) : Option Validators :=
  match op.change with
  | .refresh url fields => if url = key then some fields else none
  | _ => none

section Content

variable {store : ValidatorStore} {key : Str}

def validatorsAt (store : ValidatorStore) (key : Str) : Option Validators :=
  (store.entries.lookup key).map ValidatorEntry.validators

theorem validatorsAt_touch (store : ValidatorStore) (url : Str) (validators : Validators)
    (key : Str) :
    (store.touch url validators).validatorsAt key =
      if url = key then some validators else store.validatorsAt key := by
  unfold validatorsAt touch withEntries
  by_cases hkey : url = key
  · subst hkey
    simp
  · simp [hkey, AList.lookup_insert_ne (Ne.symm hkey)]

/-- **One call rewrites what there is of a URL**, unless it evicts the URL. -/
theorem validatorsAt_call (hint : store.Hint) {op : Op} (hspared : store.evicts op key = false) :
    (store.call op).1.validatorsAt key = op.change.rewrite key (store.validatorsAt key) := by
  have hcall := call_eq_effect hint op
  unfold evicts at hspared
  rw [hcall] at hspared ⊢
  cases hchange : op.change with
  | put url validators =>
    rw [show Change.rewrite key (store.validatorsAt key) (.put url validators) = _ from
      (validatorsAt_touch store url validators key).symm]
    rw [hchange] at hspared
    cases hafter : (store.filed url validators).lookup key with
    | some entry =>
      have hbefore : (store.touch url validators).entries.lookup key = some entry :=
        lookup_evict hafter
      simp [validatorsAt, effect, counted, hafter, hbefore]
    | none =>
      -- it is not there because it was not there before
      have hnone : (store.touch url validators).entries.lookup key = none := by
        simp only [effect, counted, holds, hafter, Option.isSome_none, Bool.not_false,
          Bool.and_true, Bool.or_eq_false_iff, decide_eq_false_iff_not] at hspared
        refine (AList.lookup_insert_ne (Ne.symm hspared.2)).trans ?_
        simpa using hspared.1
      simp [validatorsAt, effect, counted, hafter, hnone]
  | drop url =>
    by_cases hkey : url = key
    · subst hkey
      simp [Change.rewrite, validatorsAt, effect, counted, AList.lookup_erase]
    · simp [Change.rewrite, validatorsAt, effect, counted, hkey,
        AList.lookup_erase_ne (Ne.symm hkey)]
  | clear => rfl
  | refresh url fields =>
    cases hlookup : store.entries.lookup url with
    | none =>
      rw [effect_refresh_of_none hlookup]
      by_cases hkey : url = key
      · subst hkey
        simp [Change.rewrite, validatorsAt, draw, hlookup]
      · simp [Change.rewrite, validatorsAt, draw, hkey]
    | some entry =>
      rw [effect_refresh_of_some hlookup, validatorsAt_touch]
      by_cases hkey : url = key
      · subst hkey
        simp [Change.rewrite, validatorsAt, hlookup]
      · simp [Change.rewrite, hkey]
  | replay url =>
    cases hlookup : store.entries.lookup url with
    | none =>
      rw [effect_replay_of_none hlookup]
      rfl
    | some entry =>
      rw [effect_replay_of_some hlookup, validatorsAt_touch]
      by_cases hkey : url = key
      · subst hkey
        simp [Change.rewrite, validatorsAt, hlookup]
      · simp [Change.rewrite, hkey]
  | nothing => rfl

theorem validatorsAt_run (hsound : store.Sound) (log : List (Option Str)) {ops : List Op}
    (hspared : spares key store ops) :
    (ops.foldl logged (store, log)).1.validatorsAt key =
      ops.foldl (fun held op => op.change.rewrite key held) (store.validatorsAt key) := by
  induction ops generalizing store log with
  | nil => rfl
  | cons op ops ih =>
    simp only [spares, Bool.and_eq_true, Bool.not_eq_true'] at hspared
    have hcall := call_eq_effect hsound.hint op
    have hsound' : (store.call op).1.Sound := hcall ▸ (hsound.effect op.change).1
    rw [List.foldl_cons, List.foldl_cons, ← validatorsAt_call hsound.hint hspared.1]
    exact ih hsound' _ hspared.2

theorem rewrite_of_settles {op : Op} {validators : Option Validators}
    (h : op.settles key = some validators) (held : Option Validators) :
    op.change.rewrite key held = validators := by
  unfold Op.settles at h
  cases hchange : op.change with
  | put | drop =>
    simp only [hchange] at h
    split_ifs at h with hkey
    simpa [Change.rewrite, hkey] using h
  | clear => simpa [hchange, Change.rewrite] using h
  | refresh | replay | nothing => simp [hchange] at h

theorem foldl_rewrite {ops : List Op} (h : ∀ op ∈ ops, op.settles key = none)
    (held : Option Validators) :
    ops.foldl (fun held op => op.change.rewrite key held) held =
      held.map fun validators => (ops.filterMap (Op.renews key)).foldl Validators.overwrite
        validators := by
  induction ops generalizing held with
  | nil => simp
  | cons op ops ih =>
    have hfirst := h op List.mem_cons_self
    rw [List.foldl_cons, ih fun later hlater => h later (List.mem_cons_of_mem _ hlater)]
    unfold Op.settles at hfirst
    cases hchange : op.change with
    | put url v | drop url =>
      have hkey : url ≠ key := by simpa [hchange] using hfirst
      simp [Change.rewrite, Op.renews, hchange, hkey]
    | clear => simp [hchange] at hfirst
    | refresh url fields =>
      by_cases hkey : url = key
      · simp [Change.rewrite, Op.renews, hchange, hkey, Function.comp_def]
      · simp [Change.rewrite, Op.renews, hchange, hkey]
    | replay url => simp [Change.rewrite, Op.renews, hchange]
    | nothing => simp [Change.rewrite, Op.renews, hchange]

end Content

/-! ## Every sequence of calls -/

/-- What `condition` sends for a URL when these are the validators. -/
def Replays (store : ValidatorStore) (url : Url) (validators : Option Validators) : Prop :=
  ∀ request : Request, isRevalidatable request.method →
    isAlreadyConditional request.headers = false →
    (store.call (.condition url request)).2 = .inr (.headers
      (validators.elim request.headers fun validators => validators.replay request.headers))

/-- What the store promises of any calls. -/
structure Keeps (capacity : Nat) (ops : List Op) : Prop where
  within : (run capacity ops).1.entries.entries.length ≤ max capacity 1
  /-- The insertion draws one number more. -/
  purged : numbersDrawn (withCapacity capacity) ops + 1 < 2 ^ 64 → ∀ op key validators,
    op.change = .put key validators → (run capacity ops).1.holds key = false →
    (run capacity ops).1.entries.entries.length = max capacity 1 →
    Purged (run capacity ops).1 (run capacity ops).2 op key
  /-- The last call that settles, and the `304`s after it. -/
  replayed : ∀ url : Url, spares url.upToQuery (withCapacity capacity) ops →
    ∀ before op after validators, ops = before ++ op :: after →
      op.settles url.upToQuery = some validators →
      (∀ later ∈ after, later.settles url.upToQuery = none) →
      (run capacity ops).1.Replays url (validators.map fun validators =>
        (after.filterMap (Op.renews url.upToQuery)).foldl Validators.overwrite validators)
  /-- Before any such call there is nothing. -/
  unsettled : ∀ url : Url, spares url.upToQuery (withCapacity capacity) ops →
    (∀ op ∈ ops, op.settles url.upToQuery = none) → (run capacity ops).1.Replays url none

/-- **What the store keeps**, for every capacity and whatever is called. That it is what was used
last rests on the counter. -/
theorem run_keeps (capacity : Nat) (ops : List Op) : Keeps capacity ops := by
  have hnew := sound_withCapacity capacity
  obtain ⟨hsound, hcapacity⟩ := hnew.run [] ops
  have hreplays : ∀ (url : Url) (validators : Option Validators),
      (run capacity ops).1.validatorsAt url.upToQuery = validators →
      (run capacity ops).1.Replays url validators := by
    intro url validators hvalidators request hmethod hplain
    rw [show (run capacity ops).1.call (.condition url request) = _ from
      call_condition hsound.hint url request]
    rw [hmethod, hplain, ← hvalidators]
    rfl
  refine ⟨?_, ?_, ?_, ?_⟩
  · exact hsound.within.trans hcapacity.le
  · intro hfew op key validators hop hkey hfull
    have hempty : Ordered [] (withCapacity capacity) :=
      ⟨fun _ _ h => (by cases h), fun _ _ _ _ h => (by cases h)⟩
    have hzero : (withCapacity capacity).seq.toNat = 0 := rfl
    obtain ⟨hordered, hseq⟩ := hempty.run hnew ops (by omega)
    refine hordered.purged hsound hop hkey (hfull.trans hcapacity.symm) ?_
    rw [BitVec.toNat_add, hseq, hzero, Nat.zero_add]
    exact (Nat.mod_eq_of_lt hfew).symm ▸ Nat.le_add_right _ _
  · intro url hspared before op after validators hops hsettles hlater
    refine hreplays url _ ((validatorsAt_run hnew [] hspared).trans ?_)
    rw [hops, List.foldl_append, List.foldl_cons, rewrite_of_settles hsettles,
      foldl_rewrite hlater]
  · intro url hspared hnone
    refine hreplays url _ ((validatorsAt_run hnew [] hspared).trans ?_)
    rw [foldl_rewrite hnone]
    rfl

/-- Two pages and room for one. -/
theorem run_keeps_two :
    Purged (run 1 [.insert (page "/a") tag]).1 (run 1 [.insert (page "/a") tag]).2
      (.insert (page "/b") tag) (page "/b").upToQuery :=
  (run_keeps 1 [.insert (page "/a") tag]).purged (by decide +kernel) (.insert (page "/b") tag) _ tag
    rfl (by decide +kernel) (by decide +kernel)

/-! ## Once the counter wraps -/

def revisit : Op := .condition (page "/a") (.plain .get [] .empty)

/-- A page is filed, and requested any number of times. -/
def revisits (times : Nat) : List Op := .insert (page "/a") tag :: List.replicate times revisit

/-- The store meanwhile. -/
def single (last seq : BitVec 64) : ValidatorStore :=
  ⟨(∅ : Table Str ValidatorEntry).insert (page "/a").upToQuery ⟨tag, last⟩, 1, seq, 1⟩

theorem call_revisit (last seq : BitVec 64) :
    ((single last seq).call revisit).1 = single seq (seq + 1) := by
  have hlookup : (single last seq).entries.lookup (page "/a").upToQuery = some ⟨tag, last⟩ :=
    AList.lookup_insert _
  have hint : (single last seq).Hint := rfl
  rw [call_eq_effect hint, show revisit.change = .replay (page "/a").upToQuery from rfl,
    effect_replay_of_some hlookup]
  simp [touch, single, draw, withEntries]

theorem foldl_revisit (times : Nat) (last seq : BitVec 64) (log : List (Option Str)) :
    ((List.replicate (times + 1) revisit).foldl logged (single last seq, log)).1 =
      single (seq + BitVec.ofNat 64 times) (seq + BitVec.ofNat 64 times + 1) := by
  induction times generalizing last seq log with
  | zero => simpa [logged] using call_revisit last seq
  | succ times ih =>
    have hseq : seq + 1 + BitVec.ofNat 64 times = seq + BitVec.ofNat 64 (times + 1) := by
      rw [BitVec.ofNat_add, BitVec.add_comm (BitVec.ofNat 64 times), BitVec.add_assoc]
      rfl
    rw [List.replicate_succ, List.foldl_cons, ← hseq]
    show (List.foldl logged (((single last seq).call revisit).1, _) _).1 = _
    rw [call_revisit]
    exact ih seq (seq + 1) _

/-- The entry has the greatest number there is, and the next one drawn is zero. -/
theorem run_revisits : (run 1 (revisits (2 ^ 64 - 1))).1 = single (BitVec.allOnes 64) 0 := by
  have hfirst : logged (withCapacity 1, []) (.insert (page "/a") tag) =
      (single 0 1, [some (page "/a").upToQuery]) := rfl
  have hlast : (1 : BitVec 64) + BitVec.ofNat 64 (2 ^ 64 - 2) = BitVec.allOnes 64 := by decide
  have htimes : 2 ^ 64 - 1 = 2 ^ 64 - 2 + 1 := by decide
  rw [run, revisits, List.foldl_cons, hfirst, htimes, foldl_revisit, hlast]
  exact congrArg (single _) (by decide)

/-- **The newcomer goes.** The store is full, another page is filed, and it is the other page that
is evicted at once. -/
theorem newcomer_purged :
    let store := (run 1 (revisits (2 ^ 64 - 1))).1
    store.entries.entries.length = 1 ∧ store.holds (page "/b").upToQuery = false ∧
      Op.change (.insert (page "/b") tag) = .put (page "/b").upToQuery tag ∧
      (store.call (.insert (page "/b") tag)).1.holds (page "/b").upToQuery = false := by
  rw [run_revisits]
  refine ⟨rfl, by decide +kernel, rfl, by decide +kernel⟩

end ValidatorStore

end Chromulate.Http
