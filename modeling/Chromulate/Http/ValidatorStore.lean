import Chromulate.Http.Engine
import Chromulate.Lib.Bytes
import Chromulate.Lib.Calls
import Chromulate.Lib.Eviction

/-!
# The validator store

`chromulate-http/src/validators.rs`, as many tasks call it. The number of entries is kept twice: in
the table, behind the lock, and in `stored`, which is read without the lock and written after it is
given back. `condition` and `remove` do nothing while `stored` is zero. So a call takes up to three
steps, a reading of the hint, a locked section and a writing of the hint, and other calls may step
in between.

A hint that is written late can be wrong for good: when one call counts, another changes the table
and writes its own count, and then the first one writes. `hint_is_right` is what holds of schedules
in which no call changes the table while another has yet to write its hint (`apart`): the hint is
the number of entries whenever no call is under way, and a removal is not skipped.
`removal_skipped` is a run of another schedule, in which a validator that an answer has withdrawn is
sent again.
-/

namespace Chromulate.Http

/-! ## What a message says -/

def isRevalidatable (method : Method) : Bool := method = .get || method = .head

def varies (headers : HeaderMap) : Bool :=
  (headers.getAll .vary).any fun value =>
    (value.bytes.splitOn 44).any fun field => !(Bytes.trimAscii field).isEmpty

def usable (value : Option HeaderValue) : Option HeaderValue :=
  value.filter fun value => !(Bytes.trimAscii value.bytes).isEmpty

namespace Validators

def isEmpty (validators : Validators) : Bool :=
  validators.etag.isNone && validators.lastModified.isNone

def fromHeaders (headers : HeaderMap) : Option Validators :=
  let validators : Validators := ⟨usable (headers.get .etag), usable (headers.get .lastModified)⟩
  if validators.isEmpty then none else some validators

/-- The validators, put on a request. -/
def replay (validators : Validators) (headers : HeaderMap) : HeaderMap :=
  let headers := match validators.etag with
    | some etag => headers.insert .ifNoneMatch etag
    | none => headers
  match validators.lastModified with
  | some lastModified => headers.insert .ifModifiedSince lastModified
  | none => headers

end Validators

/-! ## The store -/

/-- `Entry` of `ValidatorStore`. -/
structure ValidatorEntry where
  validators : Validators
  lastUseSeq : BitVec 64

structure ValidatorStore where
  entries : Table Str ValidatorEntry
  stored : Nat
  seq : BitVec 64
  capacity : Nat

namespace ValidatorStore

def withCapacity (capacity : Nat) : ValidatorStore := ⟨∅, 0, 0, max capacity 1⟩

def purgeBatch (store : ValidatorStore) : Nat := max (store.capacity / 10) 1

def purgeTarget (store : ValidatorStore) : Nat := max (store.capacity - store.purgeBatch) 1

def evict (capacity target : Nat) (entries : Table Str ValidatorEntry) : Table Str ValidatorEntry :=
  if entries.entries.length ≤ capacity then entries
  else
    Eviction.removeAll entries
      ((Select.smallest (entries.entries.length - target) (entries.entries.map fun entry =>
        (toLex (entry.2.lastUseSeq.toNat, entry.1) : Nat ×ₗ Str))).map fun worst => (ofLex worst).2)

/-! ## The calls -/

/-- A call. -/
inductive Op where
  | condition (url : Url) (request : Request)
  | observe (url : Url) (method : Method) (response : Cache.Response)
  | insert (url : Url) (validators : Validators)
  | remove (url : Url)
  | clear

/-- What a call returns. -/
inductive Answer where
  /-- The headers of the request of `condition`. -/
  | headers (headers : HeaderMap)
  | removed (validators : Option Validators)
  | done

/-- Where a call stands: what it does next. -/
inductive Point where
  /-- `condition` reads the hint. -/
  | conditioning (key : Str) (request : Request)
  /-- `condition` looks the URL up. -/
  | looking (key : Str) (headers : HeaderMap)
  /-- `put` draws a number. -/
  | putting (key : Str) (validators : Validators)
  /-- `put` takes the lock. -/
  | filing (key : Str) (validators : Validators) (seq : BitVec 64)
  /-- `remove` reads the hint. -/
  | removing (key : Str)
  /-- `remove` takes the lock. -/
  | deleting (key : Str)
  /-- `refresh` draws a number. -/
  | refreshing (key : Str) (etag lastModified : Option HeaderValue)
  /-- `refresh` takes the lock. -/
  | updating (key : Str) (etag lastModified : Option HeaderValue) (seq : BitVec 64)
  /-- `clear` takes the lock. -/
  | clearing
  /-- The hint is written. -/
  | publishing (len : Nat) (key : Option Str) (answer : Answer)

/-- The URL a call is about. -/
def Point.key : Point → Option Str
  | .conditioning key _ | .looking key _ | .putting key _ | .filing key _ _ | .removing key
  | .deleting key | .refreshing key _ _ | .updating key _ _ _ => some key
  | .clearing => none
  | .publishing _ key _ => key

/-- Where a call begins: the part of it that reads nothing of the store. -/
def enter : Op → Point ⊕ Answer
  | .condition url request => .inl (.conditioning url.upToQuery request)
  | .observe url method response =>
    if !isRevalidatable method then .inr .done
    else if response.status = 200 then
      match (Validators.fromHeaders response.headers).filter
          fun _ => !varies response.headers with
      | some validators => .inl (.putting url.upToQuery validators)
      | none => .inl (.removing url.upToQuery)
    else if response.status = 304 then
      if varies response.headers then .inl (.removing url.upToQuery)
      else .inl (.refreshing url.upToQuery (usable (response.headers.get .etag))
        (usable (response.headers.get .lastModified)))
    else .inr .done
  | .insert url validators =>
    if validators.isEmpty then .inl (.removing url.upToQuery)
    else .inl (.putting url.upToQuery validators)
  | .remove url => .inl (.removing url.upToQuery)
  | .clear => .inl .clearing

/-- The next number is drawn. -/
def draw (store : ValidatorStore) : ValidatorStore := { store with seq := store.seq + 1 }

/-- The table, changed. -/
def withEntries (store : ValidatorStore) (entries : Table Str ValidatorEntry) : ValidatorStore :=
  { store with entries := entries }

/-- One step of a call. -/
def step (store : ValidatorStore) : Point → ValidatorStore × (Point ⊕ Answer)
  | .conditioning key request =>
    if store.stored = 0 then (store, .inr (.headers request.headers))
    else if !isRevalidatable request.method || isAlreadyConditional request.headers then
      (store, .inr (.headers request.headers))
    else (store, .inl (.looking key request.headers))
  | .looking key headers =>
    match store.entries.lookup key with
    | none => (store, .inr (.headers headers))
    | some entry =>
      (store.draw.withEntries
          (store.entries.insert key { entry with lastUseSeq := store.seq }),
        .inr (.headers (entry.validators.replay headers)))
  | .putting key validators => (store.draw, .inl (.filing key validators store.seq))
  | .filing key validators seq =>
    let entries := evict store.capacity store.purgeTarget
      (store.entries.insert key ⟨validators, seq⟩)
    (store.withEntries entries, .inl (.publishing entries.entries.length (some key) .done))
  | .removing key =>
    if store.stored = 0 then (store, .inr (.removed none)) else (store, .inl (.deleting key))
  | .deleting key =>
    let entries := store.entries.erase key
    (store.withEntries entries, .inl (.publishing entries.entries.length (some key)
      (.removed ((store.entries.lookup key).map ValidatorEntry.validators))))
  | .refreshing key etag lastModified =>
    (store.draw, .inl (.updating key etag lastModified store.seq))
  | .updating key etag lastModified seq =>
    match store.entries.lookup key with
    | none => (store, .inr .done)
    | some entry =>
      (store.withEntries (store.entries.insert key
          ⟨⟨etag.or entry.validators.etag, lastModified.or entry.validators.lastModified⟩,
            seq⟩),
        .inr .done)
  | .clearing => (store.withEntries ∅, .inl (.publishing 0 none .done))
  | .publishing len _ answer => ({ store with stored := len }, .inr answer)

/-- The methods of the store. -/
def method : Calls.Method ValidatorStore Point Op Unit Answer where
  enter _ op := enter op
  step store point _ := step store point

abbrev World := Calls.World ValidatorStore Point Answer

abbrev Move := Calls.Move Op Unit Empty

/-- Nothing happens but these calls. -/
def undisturbed (_ : ValidatorStore) : Empty → ValidatorStore := Empty.elim

/-- The next step is a locked section that may add or remove an entry. -/
def Point.changes : Point → Bool
  | .filing _ _ _ | .deleting _ | .clearing => true
  | _ => false

/-- The call is going to write the hint. -/
def Point.publishes : Point → Bool
  | .publishing _ _ _ => true
  | _ => false

/-- No call changes the table while another has its hint to write. -/
def apart (w : World) : Move → Bool
  | .step i _ =>
    match w.calls[i]? with
    | some (.inl point) =>
      !point.changes || w.calls.all fun
        | .inl other => !other.publishes
        | .inr _ => true
    | _ => true
  | _ => true

/-- What the store answers for a URL. -/
def validatorsFor (store : ValidatorStore) (url : Url) : Option Validators :=
  (store.entries.lookup url.upToQuery).map ValidatorEntry.validators

/-! ## What a step can do -/

/-- The table has entries for the same URLs. -/
structure SameKeys (store after : ValidatorStore) : Prop where
  stored : after.stored = store.stored
  length : after.entries.entries.length = store.entries.entries.length
  keys : ∀ key, (after.entries.lookup key).isSome = (store.entries.lookup key).isSome

theorem SameKeys.refl (store : ValidatorStore) : SameKeys store store := ⟨rfl, rfl, fun _ => rfl⟩

theorem sameKeys_insert {store : ValidatorStore} {key : Str} {entry : ValidatorEntry}
    (hlookup : store.entries.lookup key = some entry) (changed : ValidatorEntry) (seq : BitVec 64) :
    SameKeys store { store with entries := store.entries.insert key changed, seq := seq } where
  stored := rfl
  length := by
    rw [(Table.entries_perm hlookup).length_eq, AList.entries_insert, List.length_cons,
      List.length_cons]
    rfl
  keys other := by
    by_cases hother : other = key
    · subst hother
      simp [hlookup]
    · rw [AList.lookup_insert_ne hother]

/-- The call is going to file a validator. -/
def Point.files : Point → Bool
  | .putting _ _ | .filing _ _ _ => true
  | _ => false

/-- What one step can do. -/
inductive Stepped (store : ValidatorStore) : Point → ValidatorStore × (Point ⊕ Answer) → Prop
  /-- The table keeps its keys. -/
  | quiet {point : Point} {after : ValidatorStore} {next : Point ⊕ Answer} :
      SameKeys store after → point.publishes = false → (∀ key, point ≠ .removing key) →
      (∀ key, point ≠ .deleting key) → (∀ point', next = .inl point' →
        point'.key = point.key ∧ point'.files = point.files ∧ point'.publishes = false) →
      Stepped store point (after, next)
  | skipped (key : Str) : store.stored = 0 →
      Stepped store (.removing key) (store, .inr (.removed none))
  | turned (key : Str) : store.stored ≠ 0 →
      Stepped store (.removing key) (store, .inl (.deleting key))
  | deleted (key : Str) (answer : Answer) :
      Stepped store (.deleting key) (store.withEntries (store.entries.erase key),
        .inl (.publishing (store.entries.erase key).entries.length (some key) answer))
  | filed (key : Str) (validators : Validators) (seq : BitVec 64) :
      Stepped store (.filing key validators seq)
        (store.withEntries (evict store.capacity store.purgeTarget
            (store.entries.insert key ⟨validators, seq⟩)),
          .inl (.publishing (evict store.capacity store.purgeTarget
            (store.entries.insert key ⟨validators, seq⟩)).entries.length (some key) .done))
  | cleared : Stepped store .clearing (store.withEntries ∅, .inl (.publishing 0 none .done))
  | published (len : Nat) (key : Option Str) (answer : Answer) :
      Stepped store (.publishing len key answer) ({ store with stored := len }, .inr answer)

theorem stepped (store : ValidatorStore) (point : Point) :
    Stepped store point (step store point) := by
  cases point with
  | conditioning key request =>
    unfold step
    simp only
    split_ifs
    · exact .quiet (.refl store) rfl (by simp) (by simp) fun _ h => by cases h
    · exact .quiet (.refl store) rfl (by simp) (by simp) fun _ h => by cases h
    · exact .quiet (.refl store) rfl (by simp) (by simp) fun _ h => by
        cases h
        exact ⟨rfl, rfl, rfl⟩
  | looking key _ | updating key _ _ _ =>
    unfold step
    cases hlookup : store.entries.lookup key with
    | none =>
      simp only [hlookup]
      exact .quiet (.refl store) rfl (by simp) (by simp) fun _ h => by cases h
    | some entry =>
      simp only [hlookup]
      exact .quiet (sameKeys_insert hlookup _ _) rfl (by simp) (by simp) fun _ h => by cases h
  | putting key _ | refreshing key _ _ =>
    exact .quiet ⟨rfl, rfl, fun _ => rfl⟩ rfl (by simp) (by simp) fun _ h => by
      cases h
      exact ⟨rfl, rfl, rfl⟩
  | filing key validators seq => exact .filed key validators seq
  | removing key =>
    unfold step
    simp only
    split_ifs with hzero
    · exact .skipped key hzero
    · exact .turned key hzero
  | deleting key => exact .deleted key _
  | clearing => exact .cleared
  | publishing len key answer => exact .published len key answer

/-- What one move can do. -/
inductive Moved (w : World) : Move → World → Prop
  | called (op : Op) : Moved w (.call op) ⟨w.shared, w.calls ++ [enter op]⟩
  | idle (m : Move) : Moved w m w
  | stepped {i : Nat} {point : Point} {out : ValidatorStore × (Point ⊕ Answer)} :
      w.calls[i]? = some (.inl point) → Stepped w.shared point out →
      Moved w (.step i ()) ⟨out.1, w.calls.set i out.2⟩

theorem moved (w : World) (m : Move) : Moved w m (w.move method undisturbed m) := by
  cases m with
  | call op => exact .called op
  | act action => exact action.elim
  | step i _ =>
    simp only [Calls.World.move]
    split
    · rename_i point hpoint
      exact .stepped hpoint (stepped w.shared point)
    · exact .idle _

variable {call : Point ⊕ Answer}

theorem getElem?_set_of_ne {w : World} {i j : Nat} {next : Point ⊕ Answer}
    (hcall : w.calls[j]? = some call) (hne : j ≠ i) : (w.calls.set i next)[j]? = some call := by
  rw [List.getElem?_set_ne hne.symm, hcall]

theorem getElem?_set_self {w : World} {i : Nat} {next : Point ⊕ Answer}
    (hcall : w.calls[i]? = some call) : (w.calls.set i next)[i]? = some next := by
  rw [List.getElem?_set_self (List.getElem?_eq_some_iff.mp hcall).1]

theorem getElem?_concat {w : World} {i : Nat} {next : Point ⊕ Answer}
    (hcall : w.calls[i]? = some call) : (w.calls ++ [next])[i]? = some call :=
  (List.getElem?_append_left (List.getElem?_eq_some_iff.mp hcall).1).trans hcall

theorem calls_set {w : World} {i j : Nat} {point point' : Point} {next : Point ⊕ Answer}
    (hpoint : w.calls[i]? = some (.inl point))
    (h : (w.calls.set i next)[j]? = some (.inl point')) :
    j = i ∧ next = .inl point' ∨ j ≠ i ∧ w.calls[j]? = some (.inl point') := by
  by_cases hj : j = i
  · subst hj
    rw [getElem?_set_self hpoint] at h
    exact Or.inl ⟨rfl, Option.some.inj h⟩
  · rw [List.getElem?_set_ne (Ne.symm hj)] at h
    exact Or.inr ⟨hj, h⟩

theorem calls_concat {w : World} {j : Nat} {point' : Point} {next : Point ⊕ Answer}
    (h : (w.calls ++ [next])[j]? = some (.inl point')) :
    w.calls[j]? = some (.inl point') ∨ j = w.calls.length ∧ next = .inl point' := by
  rw [List.getElem?_append] at h
  split_ifs at h with hlt
  · exact Or.inl h
  · obtain ⟨hsub, heq⟩ := List.getElem?_eq_some_iff.mp h
    rw [List.length_singleton] at hsub
    refine Or.inr ⟨by omega, ?_⟩
    simpa using heq

/-- The URL a call is about. -/
def Op.key : Op → Option Str
  | .condition url _ | .observe url _ _ | .insert url _ | .remove url => some url.upToQuery
  | .clear => none

/-- The call has a new validator for a URL. -/
def Op.gives (key : Str) (op : Op) : Bool :=
  match enter op with
  | .inl (.putting url _) => url = key
  | _ => false

/-- A call that begins is about its URL, and has nothing to file but what it gives. -/
theorem enter_cases {op : Op} {point : Point} (h : enter op = .inl point) :
    point.key = op.key ∧ point.publishes = false ∧
      (point.files → ∃ key validators, point = .putting key validators) := by
  cases op with
  | condition | remove | clear =>
    cases h
    exact ⟨rfl, rfl, fun hfiles => by cases hfiles⟩
  | insert url validators =>
    simp only [enter] at h
    split_ifs at h
    · cases h
      exact ⟨rfl, rfl, fun hfiles => by cases hfiles⟩
    · cases h
      exact ⟨rfl, rfl, fun _ => ⟨_, _, rfl⟩⟩
  | observe url method response =>
    simp only [enter] at h
    split_ifs at h
    · split at h
      · cases h
        exact ⟨rfl, rfl, fun _ => ⟨_, _, rfl⟩⟩
      · cases h
        exact ⟨rfl, rfl, fun hfiles => by cases hfiles⟩
    · cases h
      exact ⟨rfl, rfl, fun hfiles => by cases hfiles⟩
    · cases h
      exact ⟨rfl, rfl, fun hfiles => by cases hfiles⟩

/-! ## The hint -/

/-- A call is about to write the hint. -/
def Pending (w : World) : Prop :=
  ∃ (i len : Nat) (key : Option Str) (answer : Answer),
    w.calls[i]? = some (.inl (.publishing len key answer))

/-- One that has filed or removed the key's entry. -/
def PendingFor (w : World) (key : Str) : Prop :=
  ∃ (i len : Nat) (answer : Answer), w.calls[i]? = some (.inl (.publishing len (some key) answer))

/-- The hint is right, or about to be written, and what is to be written is right. An entry is not
overlooked, or a call on its URL is not over. -/
structure Hinted (w : World) : Prop where
  right : w.shared.stored = w.shared.entries.entries.length ∨ Pending w
  counted : ∀ (i len : Nat) (key : Option Str) (answer : Answer),
    w.calls[i]? = some (.inl (.publishing len key answer)) →
      len = w.shared.entries.entries.length
  seen : ∀ key, (w.shared.entries.lookup key).isSome → w.shared.stored ≠ 0 ∨ PendingFor w key

section Hint

variable {w : World} {i : Nat} {point : Point} {next : Point ⊕ Answer} {key : Str}

theorem Pending.set (h : Pending w) (hpoint : w.calls[i]? = some (.inl point))
    (hquiet : point.publishes = false) (store : ValidatorStore) :
    Pending ⟨store, w.calls.set i next⟩ := by
  obtain ⟨j, len, key, answer, hcall⟩ := h
  refine ⟨j, len, key, answer, getElem?_set_of_ne hcall ?_⟩
  rintro rfl
  cases hcall.symm.trans hpoint
  cases hquiet

theorem PendingFor.set (h : PendingFor w key) (hpoint : w.calls[i]? = some (.inl point))
    (hquiet : point.publishes = false) (store : ValidatorStore) :
    PendingFor ⟨store, w.calls.set i next⟩ key := by
  obtain ⟨j, len, answer, hcall⟩ := h
  refine ⟨j, len, answer, getElem?_set_of_ne hcall ?_⟩
  rintro rfl
  cases hcall.symm.trans hpoint
  cases hquiet

theorem Hinted.keep (h : Hinted w) (hpoint : w.calls[i]? = some (.inl point))
    (hquiet : point.publishes = false) {after : ValidatorStore} (hsame : SameKeys w.shared after)
    (hnext : ∀ point', next = .inl point' → point'.publishes = false) :
    Hinted ⟨after, w.calls.set i next⟩ where
  counted j len key answer hcall := by
    rcases calls_set hpoint hcall with ⟨-, hown⟩ | ⟨-, hother⟩
    · cases hnext _ hown
    · exact (h.counted j len key answer hother).trans hsame.length.symm
  right := by
    rcases h.right with hright | hpending
    · refine Or.inl ?_
      show after.stored = after.entries.entries.length
      rw [hsame.stored, hsame.length, hright]
    · exact Or.inr (hpending.set hpoint hquiet after)
  seen key hkey := by
    rw [hsame.keys] at hkey
    rcases h.seen key hkey with hstored | hpending
    · exact Or.inl (by rwa [hsame.stored])
    · exact Or.inr (hpending.set hpoint hquiet after)

/-- A step after which the call writes the hint. -/
theorem Hinted.change (h : Hinted w) (hpoint : w.calls[i]? = some (.inl point))
    (hquiet : point.publishes = false) {entries : Table Str ValidatorEntry} {len : Nat}
    {about : Option Str} {answer : Answer} (hlen : len = entries.entries.length)
    (hapart : apart w (.step i ())) (hchanges : point.changes)
    (hkeys : ∀ key, (entries.lookup key).isSome →
      (w.shared.entries.lookup key).isSome ∨ about = some key) :
    Hinted ⟨w.shared.withEntries entries,
      w.calls.set i (.inl (.publishing len about answer))⟩ where
  counted j len' key answer' hcall := by
    rcases calls_set hpoint hcall with ⟨-, hown⟩ | ⟨-, hother⟩
    · cases hown
      exact hlen
    · simp only [apart, hpoint, hchanges, Bool.not_true, Bool.false_or, List.all_eq_true] at hapart
      cases hapart _ (List.mem_of_getElem? hother)
  right := Or.inr ⟨i, len, about, answer, getElem?_set_self hpoint⟩
  seen key hkey := by
    rcases hkeys key hkey with hbefore | hown
    · exact (h.seen key hbefore).imp id fun hpending => hpending.set hpoint hquiet _
    · subst hown
      exact Or.inr ⟨i, len, answer, getElem?_set_self hpoint⟩

theorem lookup_evict {capacity target : Nat} {entries : Table Str ValidatorEntry}
    {entry : ValidatorEntry} (h : (evict capacity target entries).lookup key = some entry) :
    entries.lookup key = some entry := by
  unfold evict at h
  split_ifs at h
  · exact h
  · rw [Eviction.lookup_removeAll] at h
    split_ifs at h
    exact h

theorem keys_filed {store : ValidatorStore} {validators : Validators} {seq : BitVec 64}
    {other : Str} (h : ((evict store.capacity store.purgeTarget
      (store.entries.insert key ⟨validators, seq⟩)).lookup other).isSome) :
    (store.entries.lookup other).isSome ∨ some key = some other := by
  obtain ⟨entry, hentry⟩ := Option.isSome_iff_exists.mp h
  rcases Table.lookup_insert_eq_some.mp (lookup_evict hentry) with ⟨rfl, -⟩ | ⟨-, hbefore⟩
  · exact Or.inr rfl
  · exact Or.inl (by rw [hbefore]; rfl)

/-- **One move keeps the hint.** -/
theorem Hinted.move (h : Hinted w) (m : Move) (hapart : apart w m) :
    Hinted (w.move method undisturbed m) := by
  have hm := moved w m
  generalize w.move method undisturbed m = w' at hm
  cases hm with
  | idle => exact h
  | called op =>
    refine ⟨h.right.imp id ?_, fun j len key answer hcall => ?_,
      fun key hkey => (h.seen key hkey).imp id ?_⟩
    · rintro ⟨j, len, key, answer, hcall⟩
      exact ⟨j, len, key, answer, getElem?_concat hcall⟩
    · rcases calls_concat hcall with hold | ⟨-, hnew⟩
      · exact h.counted j len key answer hold
      · cases (enter_cases hnew).2.1
    · rintro ⟨j, len, answer, hcall⟩
      exact ⟨j, len, answer, getElem?_concat hcall⟩
  | stepped hpoint hstep =>
    cases hstep with
    | quiet hsame hquiet _ _ hnext =>
      exact h.keep hpoint hquiet hsame fun point' heq => (hnext point' heq).2.2
    | skipped => exact h.keep hpoint rfl (.refl _) fun _ heq => by cases heq
    | turned =>
      refine h.keep hpoint rfl (.refl _) fun _ heq => ?_
      cases heq
      rfl
    | deleted key =>
      refine h.change hpoint rfl rfl hapart rfl fun other hother => Or.inl ?_
      obtain ⟨entry, hentry⟩ := Option.isSome_iff_exists.mp hother
      rw [(Table.lookup_erase_eq_some.mp hentry).2]
      rfl
    | filed => exact h.change hpoint rfl rfl hapart rfl fun other hother => keys_filed hother
    | cleared => exact h.change hpoint rfl rfl hapart rfl fun other hother => by simp at hother
    | published len key answer =>
      have hlen := h.counted _ len key answer hpoint
      refine ⟨Or.inl hlen, fun j len' key' answer' hcall => ?_, fun other hother => Or.inl ?_⟩
      · rcases calls_set hpoint hcall with ⟨-, hown⟩ | ⟨-, hothers⟩
        · cases hown
        · exact h.counted j len' key' answer' hothers
      · obtain ⟨entry, hentry⟩ := Option.isSome_iff_exists.mp hother
        show len ≠ 0
        rw [hlen, (Table.entries_perm hentry).length_eq, List.length_cons]
        exact Nat.succ_ne_zero _

end Hint

/-! ## A URL without a validator -/

section Gone

variable {w : World} {i : Nat} {point : Point} {next : Point ⊕ Answer} {key : Str}

/-- Nothing is filed for the URL, and nothing is going to be. -/
structure Gone (key : Str) (w : World) : Prop where
  lookup : w.shared.entries.lookup key = none
  calls : ∀ (i : Nat) (point : Point), w.calls[i]? = some (.inl point) → point.files →
    point.key ≠ some key

/-- Only a call that files a validator for the URL brings it in. -/
theorem lookup_stepped {store : ValidatorStore} {out : ValidatorStore × (Point ⊕ Answer)}
    (hstep : Stepped store point out) (hnone : store.entries.lookup key = none)
    (hother : point.files → point.key ≠ some key) : out.1.entries.lookup key = none := by
  cases hstep with
  | quiet hsame =>
    have hkey := hsame.keys key
    rw [hnone, Option.isSome_none, Option.isSome_eq_false_iff, Option.isNone_iff_eq_none] at hkey
    exact hkey
  | skipped => exact hnone
  | turned => exact hnone
  | deleted other =>
    rw [Option.eq_none_iff_forall_ne_some]
    intro entry hentry
    have hbefore := (Table.lookup_erase_eq_some.mp hentry).2
    rw [hnone] at hbefore
    cases hbefore
  | filed other validators seq =>
    rw [Option.eq_none_iff_forall_ne_some]
    intro entry hentry
    rcases Table.lookup_insert_eq_some.mp (lookup_evict hentry) with ⟨rfl, -⟩ | ⟨-, hbefore⟩
    · exact hother rfl rfl
    · rw [hnone] at hbefore
      cases hbefore
  | cleared => rfl
  | published => exact hnone

variable {point' : Point}

/-- A step leaves a call about its URL, and no call starts to file. -/
theorem next_stepped {store after : ValidatorStore}
    (hstep : Stepped store point (after, .inl point')) :
    (point'.key = point.key) ∧ (point'.files → point.files) := by
  cases hstep with
  | quiet _ _ _ _ hnext =>
    obtain ⟨hkey, hfiles, -⟩ := hnext point' rfl
    exact ⟨hkey, fun h => hfiles ▸ h⟩
  | turned | deleted | cleared => exact ⟨rfl, fun h => by cases h⟩
  | filed => exact ⟨rfl, fun _ => rfl⟩

theorem Gone.move (h : Gone key w) (m : Move)
    (hgives : ∀ op, m = .call op → op.gives key = false) :
    Gone key (w.move method undisturbed m) := by
  have hm := moved w m
  generalize w.move method undisturbed m = w' at hm
  cases hm with
  | idle => exact h
  | called op =>
    refine ⟨h.lookup, fun j point' hcall hfiles hkey => ?_⟩
    rcases calls_concat hcall with hold | ⟨-, hnew⟩
    · exact h.calls j point' hold hfiles hkey
    · obtain ⟨other, validators, rfl⟩ := (enter_cases hnew).2.2 hfiles
      cases hkey
      have hgiven := hgives op rfl
      simp [Op.gives, hnew] at hgiven
  | @stepped i point out hpoint hstep =>
    refine ⟨lookup_stepped hstep h.lookup (h.calls i point hpoint), ?_⟩
    intro j point' hcall hfiles
    rcases calls_set hpoint hcall with ⟨rfl, hnext⟩ | ⟨-, hold⟩
    · obtain ⟨after, next⟩ := out
      subst hnext
      obtain ⟨hkey, hfiles'⟩ := next_stepped hstep
      rw [hkey]
      exact h.calls j point hpoint (hfiles' hfiles)
    · exact h.calls j point' hold hfiles

/-- While one call removes the URL's entry no other call is about the URL. -/
structure Going (key : Str) (i : Nat) (w : World) : Prop where
  others : ∀ (j : Nat) (point : Point), j ≠ i → w.calls[j]? = some (.inl point) →
    point.key ≠ some key
  own : ∃ call, w.calls[i]? = some call ∧ (call = .inl (.removing key) ∨
    call = .inl (.deleting key) ∨
    w.shared.entries.lookup key = none ∧ ∀ point, call = .inl point → point.publishes)

/-- The hint does not hide the entry from the only call on its URL. -/
theorem Going.lookup_of_zero (h : Going key i w) (hhinted : Hinted w)
    (hpoint : w.calls[i]? = some (.inl (.removing key))) (hzero : w.shared.stored = 0) :
    w.shared.entries.lookup key = none := by
  by_contra hsome
  rcases hhinted.seen key (Option.isSome_iff_ne_none.mpr hsome) with
    hstored | ⟨j, len, answer, hcall⟩
  · exact hstored hzero
  · have hne : j ≠ i := by
      rintro rfl
      cases hcall.symm.trans hpoint
    exact h.others j _ hne hcall rfl

theorem Going.move (h : Going key i w) (hhinted : Hinted w) (m : Move)
    (hother : ∀ op, m = .call op → op.key ≠ some key) :
    Going key i (w.move method undisturbed m) := by
  obtain ⟨call, hcall, hown⟩ := h.own
  have hm := moved w m
  generalize w.move method undisturbed m = w' at hm
  cases hm with
  | idle => exact h
  | called op =>
    refine ⟨fun j point hj hpoint => ?_, call, getElem?_concat hcall, hown⟩
    rcases calls_concat hpoint with hold | ⟨-, hnew⟩
    · exact h.others j point hj hold
    · rw [(enter_cases hnew).1]
      exact hother op rfl
  | @stepped k point out hpoint hstep =>
    obtain ⟨after, next⟩ := out
    have hothers : ∀ (j : Nat) (point' : Point), j ≠ i →
        (w.calls.set k next)[j]? = some (.inl point') → point'.key ≠ some key := by
      intro j point' hj hpoint'
      rcases calls_set hpoint hpoint' with ⟨rfl, rfl⟩ | ⟨-, hold⟩
      · rw [(next_stepped hstep).1]
        exact h.others j point hj hpoint
      · exact h.others j point' hj hold
    refine ⟨hothers, ?_⟩
    by_cases hk : k = i
    · subst hk
      refine ⟨next, getElem?_set_self hpoint, ?_⟩
      cases Option.some.inj (hcall.symm.trans hpoint)
      rcases hown with hown | hown | ⟨hnone, hpublishes⟩
      · cases hown
        cases hstep with
        | quiet _ _ hne => exact absurd rfl (hne key)
        | skipped _ hzero =>
          exact Or.inr (Or.inr ⟨h.lookup_of_zero hhinted hpoint hzero, fun _ h => by cases h⟩)
        | turned => exact Or.inr (Or.inl rfl)
      · cases hown
        cases hstep with
        | quiet _ _ _ hne => exact absurd rfl (hne key)
        | deleted =>
          refine Or.inr (Or.inr ⟨AList.lookup_erase key _, fun _ h => ?_⟩)
          cases h
          rfl
      · have hpub := hpublishes point rfl
        refine Or.inr (Or.inr ⟨lookup_stepped hstep hnone ?_, ?_⟩)
        · cases point with
          | publishing => exact fun hfiles => by cases hfiles
          | _ => cases hpub
        · cases hstep with
          | quiet _ hquiet =>
            rw [hpub] at hquiet
            cases hquiet
          | published => exact fun _ h => by cases h
          | _ => cases hpub
    · refine ⟨call, getElem?_set_of_ne hcall (Ne.symm hk), hown.imp id (Or.imp id ?_)⟩
      rintro ⟨hnone, hpublishes⟩
      exact ⟨lookup_stepped hstep hnone fun _ => h.others k point hk hpoint, hpublishes⟩

theorem Going.gone (h : Going key i w) {answer : Answer}
    (hcall : w.calls[i]? = some (.inr answer)) :
    Gone key w := by
  obtain ⟨call, hcall', hown⟩ := h.own
  cases Option.some.inj (hcall.symm.trans hcall')
  refine ⟨?_, fun j point hpoint _ => h.others j point ?_ hpoint⟩
  · rcases hown with hown | hown | hown
    · cases hown
    · cases hown
    · exact hown.1
  · rintro rfl
    cases hpoint.symm.trans hcall

end Gone

/-! ## Whole runs -/

/-- What the tasks reach from a new store. -/
def reach (capacity : Nat) (moves : List Move) : World :=
  Calls.World.run method undisturbed ⟨withCapacity capacity, []⟩ moves

/-- No call of a run changes the table while another has its hint to write. -/
def apartRun (capacity : Nat) (moves : List Move) : Bool :=
  Calls.World.meets method undisturbed apart ⟨withCapacity capacity, []⟩ moves

section Runs

variable {capacity : Nat} {moves later : List Move} {key : Str}

variable {w : World}

theorem hinted_run (h : Hinted w) (hmeets : w.meets method undisturbed apart moves) :
    Hinted (w.run method undisturbed moves) :=
  Calls.World.run_induction Hinted (fun _ m h hapart => h.move m hapart) hmeets h

theorem hinted_reach (hmeets : apartRun capacity moves) : Hinted (reach capacity moves) :=
  hinted_run ⟨Or.inl rfl, fun _ _ _ _ hcall => by (cases hcall),
    fun key hkey => by simp [withCapacity] at hkey⟩ hmeets

theorem gone_run (h : Gone key w)
    (hgives : ∀ op, Calls.Move.call op ∈ moves → op.gives key = false) :
    Gone key (w.run method undisturbed moves) := by
  induction moves generalizing w with
  | nil => exact h
  | cons m moves ih =>
    refine ih (h.move m fun op hop => hgives op ?_) fun op hop => hgives op ?_
    · rw [hop]
      exact List.mem_cons_self
    · exact List.mem_cons_of_mem _ hop

theorem going_run {i : Nat} (h : Going key i w) (hhinted : Hinted w)
    (hmeets : w.meets method undisturbed apart moves)
    (hothers : ∀ op, Calls.Move.call op ∈ moves → op.key ≠ some key) :
    Going key i (w.run method undisturbed moves) := by
  induction moves generalizing w with
  | nil => exact h
  | cons m moves ih =>
    simp only [Calls.World.meets, Bool.and_eq_true] at hmeets
    refine ih (h.move hhinted m fun op hop => hothers op ?_) (hhinted.move m hmeets.1) hmeets.2
      fun op hop => hothers op ?_
    · rw [hop]
      exact List.mem_cons_self
    · exact List.mem_cons_of_mem _ hop

/-- An answer that takes a URL's validator away. -/
structure Withdraws (method : Method) (response : Cache.Response) : Prop where
  method : isRevalidatable method
  status : response.status = 200
  without : varies response.headers ∨ Validators.fromHeaders response.headers = none

theorem Withdraws.enter {method : Method} {response : Cache.Response}
    (h : Withdraws method response) (url : Url) :
    ValidatorStore.enter (.observe url method response) = .inl (.removing url.upToQuery) := by
  have hnone : (Validators.fromHeaders response.headers).filter
      (fun _ => !varies response.headers) = none := by
    rcases h.without with hvaries | hnone
    · simp [hvaries]
    · rw [hnone]
      rfl
  simp [ValidatorStore.enter, h.method, h.status, hnone]

theorem going_start {url : Url} {method : Method} {response : Cache.Response}
    (hwithdraws : Withdraws method response)
    (hfree : ∀ (i : Nat) (point : Point), w.calls[i]? = some (.inl point) →
      point.key ≠ some url.upToQuery) :
    Going url.upToQuery w.calls.length
      (w.move ValidatorStore.method undisturbed (.call (.observe url method response))) := by
  refine ⟨fun j point hj hpoint => ?_, .inl (.removing url.upToQuery), ?_, Or.inl rfl⟩
  · rcases calls_concat hpoint with hold | ⟨hlast, -⟩
    · exact hfree j point hold
    · exact absurd hlast hj
  · show (w.calls ++ [ValidatorStore.enter (.observe url method response)])[w.calls.length]? = _
    rw [hwithdraws.enter url]
    simp

/-- **The hint gives no wrong answer**, in a run in which no call changes the table while another
has its hint to write. Whenever no call is under way it is the number of entries. And once an
`observe` of an answer that withdraws a URL's validator has returned, with no other call on that URL
under way meanwhile, no `condition` finds one for it until a call gives it a new one. -/
theorem hint_is_right (capacity : Nat) (moves : List Move) (hapart : apartRun capacity moves) :
    ((∀ call ∈ (reach capacity moves).calls, ∃ answer, call = .inr answer) →
      (reach capacity moves).shared.stored =
        (reach capacity moves).shared.entries.entries.length) ∧
    ∀ (url : Url) (method : Method) (response : Cache.Response) (before during later : List Move),
      moves = before ++ .call (.observe url method response) :: during ++ later →
      Withdraws method response →
      (∀ (i : Nat) (point : Point), (reach capacity before).calls[i]? = some (.inl point) →
        point.key ≠ some url.upToQuery) →
      (∀ op, Calls.Move.call op ∈ during → op.key ≠ some url.upToQuery) →
      (∃ answer, (reach capacity
        (before ++ .call (.observe url method response) :: during)).calls[
          (reach capacity before).calls.length]? = some (.inr answer)) →
      (∀ op, Calls.Move.call op ∈ later → op.gives url.upToQuery = false) →
      ∀ headers, ((reach capacity moves).shared.step (.looking url.upToQuery headers)).2 =
        .inr (.headers headers) := by
  constructor
  · intro hquiet
    rcases (hinted_reach hapart).right with hright | ⟨i, len, key, answer, hcall⟩
    · exact hright
    · obtain ⟨_, hreturned⟩ := hquiet _ (List.mem_of_getElem? hcall)
      cases hreturned
  · rintro url method response before during later rfl hwithdraws hfree hothers ⟨answer, hreturned⟩
      hgives headers
    -- the world in which the call begins, and the worlds until it has returned
    rw [apartRun, Calls.World.meets_append, Calls.World.meets_append] at hapart
    obtain ⟨⟨hbefore, hduring⟩, -⟩ := hapart
    simp only [Calls.World.meets, Bool.and_eq_true] at hduring
    have hstart := going_start hwithdraws hfree
    have hhinted := (hinted_reach hbefore).move (.call (.observe url method response)) hduring.1
    have hrun : reach capacity (before ++ .call (.observe url method response) :: during) =
        ((reach capacity before).move ValidatorStore.method undisturbed
          (.call (.observe url method response))).run ValidatorStore.method undisturbed during := by
      rw [reach, Calls.World.run_append]
      rfl
    rw [hrun] at hreturned
    have hgone := gone_run ((going_run hstart hhinted hduring.2 hothers).gone hreturned) hgives
    rw [← hrun, reach, ← Calls.World.run_append] at hgone
    simp only [step, reach, hgone.lookup]

/-- A page. -/
def page (path : String) : Url := .plain "https" "shop.test" path

/-- A validator for one. -/
def tag : Validators := ⟨some (.fromStatic "v1"), none⟩

/-- An answer without a validator. -/
def bare : Cache.Response := ⟨200, .http11, [], none⟩

/-- Two pages are filed by calls that overlap, and a request to one of them begins. -/
def twoFiled : List Move :=
  [.call (.insert (page "/x") tag), .call (.insert (page "/u") tag), .step 1 (), .step 0 (),
    .step 0 (), .step 0 (), .step 1 (), .step 1 (),
    .call (.condition (page "/x") (.plain .get [] .empty)), .step 2 ()]

/-- While an answer takes the other's validator away, the request gets its own, and a third page is
filed once the hint is written. -/
def withdrawing : List Move :=
  [.step 3 (), .call (.insert (page "/w") tag), .step 4 (), .step 3 (), .step 2 (), .step 3 (),
    .step 4 (), .step 4 ()]

theorem hint_is_right_overlapping :
    let moves := twoFiled ++ .call (.observe (page "/u") .get bare) :: withdrawing
    (reach 10 twoFiled).shared.validatorsFor (page "/u") = some tag ∧
      (reach 10 moves).shared.stored = (reach 10 moves).shared.entries.entries.length ∧
      ∀ headers, ((reach 10 moves).shared.step (.looking (page "/u").upToQuery headers)).2 =
        .inr (.headers headers) := by
  intro moves
  obtain ⟨hhint, hwithdrawn⟩ := hint_is_right 10 moves rfl
  refine ⟨rfl, hhint fun call hcall => ?_, ?_⟩
  · have hcalls : (reach 10 moves).calls.all Sum.isRight := rfl
    exact Sum.isRight_iff.mp (List.all_eq_true.mp hcalls call hcall)
  · refine hwithdrawn (page "/u") .get bare twoFiled withdrawing [] (List.append_nil _).symm
      ⟨rfl, rfl, Or.inr rfl⟩ ?_ ?_ ⟨_, rfl⟩ (by simp)
    · -- of the calls made so far only the request to the first page is under way
      intro i point hpoint
      match i, hpoint with
      | 2, hpoint =>
        cases hpoint
        decide
    · simp only [withdrawing, List.mem_cons, List.not_mem_nil, or_false, reduceCtorEq, false_or]
      rintro op hop
      cases hop
      decide

/-- A removal counts the entries, then a page is filed and counted, then the removal writes what it
has counted. -/
def outrun : List Move :=
  [.call (.insert (page "/x") tag), .step 0 (), .step 0 (), .step 0 (),
    .call (.remove (page "/x")), .step 1 (), .step 1 (),
    .call (.insert (page "/u") tag), .step 2 (), .step 2 (), .step 2 (),
    .step 1 ()]

/-- Then an answer without a validator comes for the page, and another page is filed. -/
def withdrawn : List Move :=
  outrun ++ [.call (.observe (page "/u") .get bare), .step 3 (),
    .call (.insert (page "/w") tag), .step 4 (), .step 4 (), .step 4 (),
    .call (.condition (page "/u") (.plain .get [] .empty)), .step 5 (), .step 5 ()]

/-- **A removal that is skipped.** No call is under way and there is an entry, and the hint is
zero; the answer without a validator takes nothing away, and the next request to the page is sent
with the old one. -/
theorem removal_skipped :
    ((reach 10 outrun).calls.all Sum.isRight ∧ (reach 10 outrun).shared.stored = 0 ∧
      (reach 10 outrun).shared.entries.entries.length = 1) ∧
    (reach 10 withdrawn).calls[3]? = some (.inr (.removed none)) ∧
    (reach 10 withdrawn).calls[5]? =
      some (.inr (.headers [(.ifNoneMatch, .fromStatic "v1")])) :=
  ⟨⟨rfl, rfl, rfl⟩, rfl, rfl⟩

end Runs

end ValidatorStore

end Chromulate.Http
