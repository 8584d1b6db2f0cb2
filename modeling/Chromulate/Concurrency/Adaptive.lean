import Chromulate.Concurrency.Ratchet
import Chromulate.Lib.Eviction
import Chromulate.Lib.Text
import Mathlib.Data.Char
import Mathlib.Data.List.Lex

/-!
# The adaptive controller

`AdaptiveConcurrency` in `chromulate-concurrency/src/adaptive.rs`, with any number of callers. An
`Arc<OriginState>` is a number: it names the entry for as long as anyone holds it, whether or not
the store still does. A caller is a task at one of the program points of `acquire_authority`,
`take_slot`, `Permit::complete` and `Permit::drop`, and a move is what happens between two of
them: one critical section, one clock reading, one wake-up, or the passing of time.

Of the points inside `take_slot`, `enabling` stands after the first check, `registered` after
`enable` and before the second check, and `parked` at the await. `Notify::notify_waiters` wakes
the futures that were enabled before it is called.
-/

namespace Chromulate.Concurrency

/-- Where a caller stands. -/
inductive Point where
  /-- `acquire_authority` was called. -/
  | looking
  /-- In the loop over `pause_remaining`. -/
  | pausing (entry : Nat)
  /-- At `Ceiling::pay`. -/
  | paying (entry : Nat)
  /-- At the first check of `take_slot`'s loop. -/
  | trying (entry : Nat) (waited : Bool)
  | enabling (entry : Nat)
  | registered (entry : Nat) (notified : Bool)
  | parked (entry : Nat) (notified : Bool)
  /-- With a `Permit`. -/
  | holding (entry : Nat) (started : Instant)
  /-- In `release`, between its critical section and `notify_waiters`. -/
  | releasing (entry : Nat)
  | gone
  deriving DecidableEq

namespace Point

/-- The entry whose slot a caller holds. -/
def holds : Point → Option Nat
  | holding entry _ => some entry
  | _ => none

/-- The entry whose pause a caller has waited out and whose slot it does not have yet. -/
def pastPause : Point → Option Nat
  | paying entry | trying entry _ | enabling entry | registered entry _ | parked entry _ =>
    some entry
  | _ => none

/-- The entry a caller has a handle to. -/
def handle : Point → Option Nat
  | looking | gone => none
  | pausing entry | paying entry | trying entry _ | enabling entry | registered entry _
  | parked entry _ | holding entry _ | releasing entry => some entry

/-- The points at which the future can be dropped before there is a permit. -/
def awaits : Point → Bool
  | pausing _ | paying _ | parked _ _ => true
  | _ => false

/-- What `notify_waiters` does to a caller. -/
def notify (entry : Nat) : Point → Point
  | registered e notified => registered e (notified || e == entry)
  | parked e notified => parked e (notified || e == entry)
  | point => point

end Point

structure Task where
  authority : Str
  point : Point
  deriving DecidableEq

/-- The controller, its callers and the clock. -/
structure World where
  /-- Every entry there ever was; those not made yet are as new. -/
  origins : Nat → Origin
  lastUseSeq : Nat → Nat
  /-- How many entries were made. -/
  made : Nat
  /-- `Store::origins`. -/
  store : Table Str Nat
  seq : Nat
  tasks : List Task
  now : Instant

/-- What a caller does next. -/
inductive Action where
  /-- `state_for`, with the authorities whose entries `try_lock` finds locked. -/
  | lookup (locked : List Str)
  /-- One turn of the pause loop, with its clock reading. -/
  | checkPause (reading : Instant)
  | pay
  /-- The first check, and the reading a permit starts with. -/
  | attempt (started : Instant)
  | enable
  /-- The second check. -/
  | retry (started : Instant)
  | wake
  /-- The future is dropped at an await. -/
  | cancel
  /-- `Permit::complete`, up to `notify_waiters`. -/
  | complete (reading : Instant) (signal : Signal)
  /-- `Permit::drop`, up to `notify_waiters`. -/
  | drop (reading : Instant)
  | notify
  deriving DecidableEq

/-- What can happen next. A caller is named by its position. -/
inductive Move where
  | arrive (authority : Str)
  | caller (i : Nat) (action : Action)
  | forget (authority : Str)
  | advance (span : Duration)
  deriving DecidableEq

namespace World

/-- A controller that remembers nothing. -/
def new (config : Config) (now : Instant) : World where
  origins _ := Origin.new config
  lastUseSeq _ := 0
  made := 0
  store := ∅
  seq := 0
  tasks := []
  now := now

/-- Move a caller to another point. -/
def put (w : World) (caller : Nat) (task : Task) (point : Point) : World :=
  { w with tasks := w.tasks.set caller { task with point := point } }

/-- Leave an entry in another state. -/
def write (w : World) (entry : Nat) (origin : Origin) : World :=
  { w with origins := Function.update w.origins entry origin }

/-- Whether `Store::evict` may take an entry: nothing in flight, and its lock is free. -/
def isIdle (w : World) (locked : List Str) (authority : Str) (entry : Nat) : Bool :=
  !locked.contains authority && (w.origins entry).inFlight = 0

/-- The rank of an entry in `Store::evict`. -/
def rank (shared : Shared) (w : World) (entry : Nat) : Bool ×ₗ Nat :=
  toLex ((w.origins entry).hasLesson shared.config, w.lastUseSeq entry)

/-- The entries `Store::evict` removes. -/
def victims (shared : Shared) (w : World) (locked : List Str) (protect : Str) : List Str :=
  Eviction.victims shared.config.capacity shared.config.purgeTarget protect (w.isIdle locked)
    (w.rank shared) w.store

/-- A new entry, in the store. -/
def insertNew (shared : Shared) (w : World) (authority : Str) (seq : Nat) : World :=
  { w with
    origins := Function.update w.origins w.made (Origin.new shared.config)
    lastUseSeq := Function.update w.lastUseSeq w.made seq
    made := w.made + 1
    store := w.store.insert authority w.made }

/-- `AdaptiveConcurrency::state_for`: the entry of an authority, and the world it leaves. -/
def stateFor (shared : Shared) (w : World) (locked : List Str) (authority : Str) : Nat × World :=
  let seq := w.seq
  let w := { w with seq := (w.seq + 1) % 2 ^ 64 }
  match w.store.lookup authority with
  | some entry => (entry, { w with lastUseSeq := Function.update w.lastUseSeq entry seq })
  | none =>
    let inserted := w.insertNew shared authority seq
    (w.made, { inserted with
      store := Eviction.removeAll inserted.store (inserted.victims shared locked authority) })

/-- A check of `take_slot`: the slot, or on to `otherwise`. -/
def check (w : World) (i : Nat) (task : Task) (entry : Nat) (waited : Bool) (started : Instant)
    (otherwise : Point) : World :=
  match (w.origins entry).tryTakeSlot waited with
  | some taken => (w.write entry taken).put i task (.holding entry started)
  | none => w.put i task otherwise

/-- The critical section of `release`. -/
def release (shared : Shared) (w : World) (i : Nat) (task : Task) (entry : Nat)
    (started reading : Instant) (signal : Option Signal) : World :=
  let latency := reading.saturatingDurationSince started
  (w.write entry ((w.origins entry).release shared reading latency signal)).put i task
    (.releasing entry)

def notifyWaiters (w : World) (entry : Nat) : World :=
  { w with tasks := w.tasks.map fun task => { task with point := task.point.notify entry } }

/-- What a caller's action does. One that the caller is not ready for does nothing. -/
def act (shared : Shared) (w : World) (i : Nat) (task : Task) (action : Action) : World :=
  match action, task.point with
  | .lookup locked, .looking =>
    let (entry, w) := w.stateFor shared locked task.authority
    w.put i task (.pausing entry)
  | .checkPause reading, .pausing entry =>
    if reading ≤ w.now ∧ (w.origins entry).pauseRemaining reading = 0 then
      w.put i task (.paying entry)
    else w
  | .pay, .paying entry => w.put i task (.trying entry false)
  | .attempt started, .trying entry waited =>
    w.check i task entry waited started (.enabling entry)
  | .enable, .enabling entry => w.put i task (.registered entry false)
  | .retry started, .registered entry notified =>
    w.check i task entry true started (.parked entry notified)
  | .wake, .parked entry true => w.put i task (.trying entry true)
  | .cancel, .pausing _ => w.put i task .gone
  | .cancel, .paying _ => w.put i task .gone
  | .cancel, .parked _ _ => w.put i task .gone
  | .complete reading signal, .holding entry started =>
    w.release shared i task entry started reading (some signal)
  | .drop reading, .holding entry started => w.release shared i task entry started reading none
  | .notify, .releasing entry => (w.put i task .gone).notifyWaiters entry
  | _, _ => w

def step (shared : Shared) (w : World) : Move → World
  | .arrive authority => { w with tasks := w.tasks ++ [⟨authority, .looking⟩] }
  | .caller i action =>
    match w.tasks[i]? with
    | some task => w.act shared i task action
    | none => w
  | .forget authority => { w with store := w.store.erase authority }
  | .advance span => { w with now := w.now + span }

def run (shared : Shared) (w : World) (moves : List Move) : World := moves.foldl (step shared) w

/-! ## What a move can do -/

/-- The changes of point that leave everything else alone. -/
inductive Shift : Point → Point → Prop where
  | paid {entry : Nat} : Shift (.paying entry) (.trying entry false)
  | enabled {entry : Nat} : Shift (.enabling entry) (.registered entry false)
  | woken {entry : Nat} : Shift (.parked entry true) (.trying entry true)
  | cancelled {point : Point} (h : point.awaits) : Shift point .gone

/-- **What a move can do**, guards included. -/
inductive Stepped (shared : Shared) (w : World) : Move → World → Prop where
  | still (move : Move) : Stepped shared w move w
  | arrived (authority : Str) :
      Stepped shared w (.arrive authority) { w with tasks := w.tasks ++ [⟨authority, .looking⟩] }
  | found {i : Nat} {task : Task} {entry : Nat} {locked : List Str}
      (htask : w.tasks[i]? = some task) (hpoint : task.point = .looking)
      (hlookup : w.store.lookup task.authority = some entry) (lastUseSeq : Nat → Nat) (seq : Nat) :
      Stepped shared w (.caller i (.lookup locked))
        (({ w with lastUseSeq := lastUseSeq, seq := seq } : World).put i task (.pausing entry))
  | made {i : Nat} {task : Task} {locked : List Str} {inserted : World}
      (htask : w.tasks[i]? = some task) (hpoint : task.point = .looking)
      (hlookup : w.store.lookup task.authority = none)
      (hinserted : inserted = ({ w with seq := (w.seq + 1) % 2 ^ 64 } : World).insertNew shared
        task.authority w.seq) :
      Stepped shared w (.caller i (.lookup locked))
        (({ inserted with
          store := Eviction.removeAll inserted.store
            (inserted.victims shared locked task.authority) } : World).put i task
          (.pausing w.made))
  | passed {i : Nat} {task : Task} {entry : Nat} {reading : Instant}
      (htask : w.tasks[i]? = some task) (hpoint : task.point = .pausing entry)
      (hreading : reading ≤ w.now) (hpause : (w.origins entry).pauseRemaining reading = 0) :
      Stepped shared w (.caller i (.checkPause reading)) (w.put i task (.paying entry))
  | shifted {i : Nat} {task : Task} {action : Action} {point : Point}
      (htask : w.tasks[i]? = some task) (hholds : task.point.holds = none)
      (hshift : Shift task.point point) :
      Stepped shared w (.caller i action) (w.put i task point)
  | took {i : Nat} {task : Task} {action : Action} {entry : Nat} {waited : Bool} {taken : Origin}
      (started : Instant) (htask : w.tasks[i]? = some task)
      (hpoint : task.point = .trying entry waited ∨ ∃ n, task.point = .registered entry n)
      (htake : (w.origins entry).tryTakeSlot waited = some taken) :
      Stepped shared w (.caller i action)
        ((w.write entry taken).put i task (.holding entry started))
  | queued {i : Nat} {task : Task} {action : Action} {entry : Nat} {waited : Bool}
      (htask : w.tasks[i]? = some task) (hpoint : task.point = .trying entry waited) :
      Stepped shared w (.caller i action) (w.put i task (.enabling entry))
  | slept {i : Nat} {task : Task} {action : Action} {entry : Nat} {notified : Bool}
      (htask : w.tasks[i]? = some task) (hpoint : task.point = .registered entry notified)
      (hfull : (w.origins entry).limit ≤ (w.origins entry).inFlight) :
      Stepped shared w (.caller i action) (w.put i task (.parked entry notified))
  | completed {i : Nat} {task : Task} {entry : Nat} {started reading : Instant} {signal : Signal}
      (htask : w.tasks[i]? = some task) (hpoint : task.point = .holding entry started) :
      Stepped shared w (.caller i (.complete reading signal))
        (w.release shared i task entry started reading (some signal))
  | dropped {i : Nat} {task : Task} {entry : Nat} {started reading : Instant}
      (htask : w.tasks[i]? = some task) (hpoint : task.point = .holding entry started) :
      Stepped shared w (.caller i (.drop reading))
        (w.release shared i task entry started reading none)
  | notified {i : Nat} {task : Task} {entry : Nat} (htask : w.tasks[i]? = some task)
      (hpoint : task.point = .releasing entry) :
      Stepped shared w (.caller i .notify) ((w.put i task .gone).notifyWaiters entry)
  | forgot (authority : Str) :
      Stepped shared w (.forget authority) { w with store := w.store.erase authority }
  | advanced (span : Duration) :
      Stepped shared w (.advance span) { w with now := w.now + span }

theorem stepped_check {shared : Shared} {w : World} {i : Nat} {task : Task} {action : Action}
    {entry : Nat} {waited : Bool} {otherwise : Point} (started : Instant)
    (htask : w.tasks[i]? = some task)
    (hpoint : task.point = .trying entry waited ∨ ∃ n, task.point = .registered entry n)
    (hotherwise : (w.origins entry).limit ≤ (w.origins entry).inFlight →
      Stepped shared w (.caller i action) (w.put i task otherwise)) :
    Stepped shared w (.caller i action) (w.check i task entry waited started otherwise) := by
  unfold check
  cases htake : (w.origins entry).tryTakeSlot waited with
  | some taken => exact .took started htask hpoint htake
  | none => exact hotherwise (tryTakeSlot_eq_none.mp htake)

theorem stepped_act {shared : Shared} {w : World} {i : Nat} {task : Task} (action : Action)
    (htask : w.tasks[i]? = some task) :
    Stepped shared w (.caller i action) (w.act shared i task action) := by
  unfold act
  split
  case h_1 locked hpoint =>
    unfold stateFor
    cases hlookup : w.store.lookup task.authority with
    | some entry =>
      simp only [hlookup]
      exact .found htask hpoint hlookup _ _
    | none =>
      simp only [hlookup]
      exact .made htask hpoint hlookup rfl
  case h_2 reading entry hpoint =>
    split
    · rename_i h
      exact .passed htask hpoint h.1 h.2
    · exact .still _
  case h_3 entry hpoint => exact .shifted htask (by rw [hpoint]; rfl) (hpoint ▸ .paid)
  case h_4 started entry waited hpoint =>
    exact stepped_check started htask (Or.inl hpoint) fun _ => .queued htask hpoint
  case h_5 entry hpoint => exact .shifted htask (by rw [hpoint]; rfl) (hpoint ▸ .enabled)
  case h_6 started entry notified hpoint =>
    exact stepped_check started htask (Or.inr ⟨notified, hpoint⟩) (.slept htask hpoint)
  case h_7 entry hpoint => exact .shifted htask (by rw [hpoint]; rfl) (hpoint ▸ .woken)
  case h_8 entry hpoint =>
    exact .shifted htask (by rw [hpoint]; rfl) (.cancelled (by rw [hpoint]; rfl))
  case h_9 entry hpoint =>
    exact .shifted htask (by rw [hpoint]; rfl) (.cancelled (by rw [hpoint]; rfl))
  case h_10 entry notified hpoint =>
    exact .shifted htask (by rw [hpoint]; rfl) (.cancelled (by rw [hpoint]; rfl))
  case h_11 reading signal entry started hpoint => exact .completed htask hpoint
  case h_12 reading entry started hpoint => exact .dropped htask hpoint
  case h_13 entry hpoint => exact .notified htask hpoint
  case h_14 => exact .still _

theorem stepped (shared : Shared) (w : World) (move : Move) :
    Stepped shared w move (w.step shared move) := by
  cases move with
  | arrive authority => exact .arrived authority
  | forget authority => exact .forgot authority
  | advance span => exact .advanced span
  | caller i action =>
    rw [step]
    cases htask : w.tasks[i]? with
    | none => exact .still _
    | some task => exact stepped_act action htask

end World

end Chromulate.Concurrency
