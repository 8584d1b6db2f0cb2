import Chromulate.Http.Pool
import Chromulate.Lib.Bytes

/-!
# A half-read socket does not reach the pool

`PoolSlot`, `ReleasingStream` and `BoundedStream` of `chromulate-http/src/body.rs`, around any body
and under any caller. The connection travels in an option inside an option: the stream drops the
outer one when its body fails, and takes it when its body ends; the slot takes the inner one when it
hands the connection to the pool.

The wrapped body is the list of what its polls will bring, with nothing asked of the list: it may go
on after an error or after its end. Between the two streams stand whatever layers the response was
given (the cache's, the decoders'), as a machine that polls what is below it, answers, or drops it.
A run is the caller polling, with the timer fired or not, or dropping the body, at any point.

**Theorem (`half_read_not_pooled`).** In every run the connection is handed to the pool at most
once, right after the wrapped body has reported its end, and no error was reported before. The
proof is that every run is a `Trace`, a grammar with one production for a connection that is handed
over.
-/

namespace Chromulate.Http.Releasing

/-- What a poll of a body brings: `Poll<Option<Result<Frame>>>`. -/
inductive Polled where
  | pending
  | data (chunk : Bytes)
  | trailers
  | error
  | done
  deriving DecidableEq

/-- What can be seen of a run. -/
inductive Event (κ : Type) where
  /-- A poll of the wrapped body. -/
  | reported (polled : Polled)
  /-- `Pool::release` is called. -/
  | handed (key : PoolKey) (connection : Connection κ)
  /-- The caller has been answered. -/
  | given (polled : Polled)
  deriving DecidableEq

/-! ## The streams -/

structure PoolSlot (κ : Type) where
  key : PoolKey
  connection : Option (Connection κ)

/-- `PoolSlot::release`, and what it hands over. -/
def PoolSlot.release {κ : Type} (slot : PoolSlot κ) : PoolSlot κ × List (Event κ) :=
  match slot.connection with
  | some connection => ({ slot with connection := none }, [.handed slot.key connection])
  | none => (slot, [])

/-- `ReleasingStream`; the body it is wrapped around is what its polls will bring. -/
structure ReleasingStream (κ : Type) where
  inner : List Polled
  slot : Option (PoolSlot κ)

def returningToPool {κ : Type} (body : List Polled) (key : PoolKey) (connection : Connection κ) :
    ReleasingStream κ :=
  ⟨body, some ⟨key, some connection⟩⟩

namespace ReleasingStream

variable {κ : Type}

/-- The match of `ReleasingStream::poll_next`. -/
def settle (stream : ReleasingStream κ) : Polled → ReleasingStream κ × List (Event κ)
  | .done =>
    match stream.slot with
    | some slot => ({ stream with slot := none }, slot.release.2)
    | none => (stream, [])
  | .error => ({ stream with slot := none }, [])
  | _ => (stream, [])

/-- One turn of the loop of `poll_data`, and the rest of `poll_next` if it leaves the loop. Trailers
are polled past; a list that is used up is a poll that has not returned. -/
def poll (stream : ReleasingStream κ) : ReleasingStream κ × List (Event κ) × Option Polled :=
  match stream.inner with
  | [] => (stream, [], none)
  | .trailers :: rest => ({ stream with inner := rest }, [.reported .trailers], none)
  | polled :: rest =>
    let (after, events) := settle { stream with inner := rest } polled
    (after, .reported polled :: events, some polled)

/-- What is left of a stream that is dropped: neither `PoolSlot` nor the stream hands anything over
then. -/
def dropped : ReleasingStream κ := ⟨[], none⟩

end ReleasingStream

/-- What a layer does when it is polled, or told what is below it has brought. -/
inductive Reply where
  | poll
  | answer (polled : Polled)
  | discard (polled : Polled)

/-- The layers between the two streams: any machine. -/
structure Layers (μ : Type) where
  tell : μ → Option Polled → μ × Reply

/-- Where a poll is. -/
inductive Control where
  | idle
  | layers (told : Option Polled)
  | stream
  | dropped

/-- The body of a response, as its caller holds it. -/
structure ResponseBody (μ κ : Type) where
  stream : ReleasingStream κ
  layers : μ
  /-- `BoundedStream`, and whether it has expired. -/
  expired : Option Bool
  control : Control

/-- What the caller does: it polls, and the timer has fired by then or not, or drops the body. -/
inductive Act where
  | poll (fired : Bool)
  | drop

namespace ResponseBody

variable {μ κ : Type} (machine : Layers μ)

/-- `bounded_by`: without a deadline the body is left as it is. -/
def boundedBy (stream : ReleasingStream κ) (layers : μ) (deadline : Bool) : ResponseBody μ κ :=
  ⟨stream, layers, if deadline then some false else none, .idle⟩

/-- `BoundedStream::poll_next`, as far as the poll of the layers below it. -/
def begin (body : ResponseBody μ κ) (fired : Bool) : ResponseBody μ κ × List (Event κ) :=
  match body.expired with
  | some true => (body, [.given .done])
  | some false =>
    if fired then ({ body with expired := some true }, [.given .error])
    else ({ body with control := .layers none }, [])
  | none => ({ body with control := .layers none }, [])

/-- The layers go on. -/
def tellLayers (body : ResponseBody μ κ) (told : Option Polled) :
    ResponseBody μ κ × List (Event κ) :=
  let (layers, reply) := machine.tell body.layers told
  match reply with
  | .poll => ({ body with layers := layers, control := .stream }, [])
  | .answer polled => ({ body with layers := layers, control := .idle }, [.given polled])
  | .discard polled =>
    ({ body with stream := .dropped, layers := layers, control := .idle }, [.given polled])

/-- The stream is polled. -/
def pollStream (body : ResponseBody μ κ) : ResponseBody μ κ × List (Event κ) :=
  let (stream, events, answer) := body.stream.poll
  match answer with
  | none => ({ body with stream := stream }, events)
  | some polled => ({ body with stream := stream, control := .layers (some polled) }, events)

/-- One step. A poll that is under way goes on, whatever the caller is about to do. -/
def step (body : ResponseBody μ κ) (act : Act) : ResponseBody μ κ × List (Event κ) :=
  match body.control with
  | .idle =>
    match act with
    | .poll fired => body.begin fired
    | .drop => ({ body with stream := .dropped, control := .dropped }, [])
  | .layers told => body.tellLayers machine told
  | .stream => body.pollStream
  | .dropped => (body, [])

/-- What is seen of a run. -/
def run : ResponseBody μ κ → List Act → List (Event κ)
  | _, [] => []
  | body, act :: acts => (body.step machine act).2 ++ run (body.step machine act).1 acts

end ResponseBody

/-! ## Traces -/

/-- What may be seen from a stream on that still has the connection, or that has not. -/
inductive Trace {κ : Type} (key : PoolKey) (connection : Connection κ) :
    Bool → List (Event κ) → Prop
  | nil {held : Bool} : Trace key connection held []
  | given {held : Bool} {events : List (Event κ)} (polled : Polled) :
      Trace key connection held events → Trace key connection held (.given polled :: events)
  | reported {held : Bool} {events : List (Event κ)} {polled : Polled} :
      polled ≠ .error → polled ≠ .done →
      Trace key connection held events → Trace key connection held (.reported polled :: events)
  | failed {held : Bool} {events : List (Event κ)} :
      Trace key connection false events → Trace key connection held (.reported .error :: events)
  | ended {events : List (Event κ)} :
      Trace key connection false events → Trace key connection false (.reported .done :: events)
  | handed {events : List (Event κ)} :
      Trace key connection false events →
      Trace key connection true (.reported .done :: .handed key connection :: events)
  | dropped {events : List (Event κ)} : (∀ polled, .reported polled ∉ events) →
      Trace key connection false events → Trace key connection true events

/-- The connections that are handed over. -/
def handedIn {κ : Type} (events : List (Event κ)) : List (PoolKey × Connection κ) :=
  events.filterMap fun
    | .handed key connection => some (key, connection)
    | _ => none

namespace Trace

variable {κ : Type} {key : PoolKey} {connection : Connection κ} {events : List (Event κ)}

theorem not_handed (h : Trace key connection false events) (k : PoolKey) (c : Connection κ) :
    .handed k c ∉ events := by
  generalize hheld : false = held at h
  induction h with
  | nil => simp
  | given polled _ ih => simpa using ih hheld
  | reported _ _ _ ih => simpa using ih hheld
  | failed _ ih => simpa using ih rfl
  | ended _ ih => simpa using ih rfl
  | handed _ _ => cases hheld
  | dropped _ _ _ => cases hheld

theorem length_handedIn_le {held : Bool} (h : Trace key connection held events) :
    (handedIn events).length ≤ held.toNat := by
  induction h with
  | nil => exact Nat.zero_le _
  | given polled _ ih | reported _ _ _ ih | ended _ ih => exact ih
  | failed _ ih | dropped _ _ ih => exact Nat.le_trans ih (Nat.zero_le _)
  | handed _ ih => exact Nat.succ_le_succ ih

variable {back front : List (Event κ)} {c : Connection κ} {k : PoolKey}

theorem exists_front {event : Event κ} {rest : List (Event κ)} (hne : event ≠ .handed k c)
    (heq : event :: rest = front ++ .handed k c :: back) :
    ∃ front', front = event :: front' ∧ rest = front' ++ .handed k c :: back := by
  cases front with
  | nil =>
    cases heq
    exact absurd rfl hne
  | cons first front' =>
    cases heq
    exact ⟨front', rfl, rfl⟩

/-- A connection is handed over: which one, and when. -/
structure HandedAt (key : PoolKey) (connection : Connection κ) (front : List (Event κ))
    (k : PoolKey) (c : Connection κ) : Prop where
  key_eq : k = key
  connection_eq : c = connection
  /-- Right after the end, and before it no error. -/
  after_end : ∃ before, front = before ++ [.reported .done] ∧ .reported .error ∉ before ∧
    .reported .done ∉ before

theorem HandedAt.cons (h : HandedAt key connection front k c) {event : Event κ}
    (herror : event ≠ .reported .error) (hdone : event ≠ .reported .done) :
    HandedAt key connection (event :: front) k c where
  key_eq := h.key_eq
  connection_eq := h.connection_eq
  after_end := by
    obtain ⟨before, rfl, hnoError, hnoDone⟩ := h.after_end
    refine ⟨event :: before, rfl, ?_, ?_⟩
    · simp [hnoError, herror.symm]
    · simp [hnoDone, hdone.symm]

/-- **Where a connection is handed over.** -/
theorem handedAt {held : Bool} (h : Trace key connection held events)
    (heq : events = front ++ .handed k c :: back) : HandedAt key connection front k c := by
  induction h generalizing front with
  | nil => simp at heq
  | given polled _ ih =>
    obtain ⟨front, rfl, hrest⟩ := exists_front (by simp) heq
    exact (ih hrest).cons (by simp) (by simp)
  | reported herror hdone _ ih =>
    obtain ⟨front, rfl, hrest⟩ := exists_front (by simp) heq
    exact (ih hrest).cons (by simpa using herror) (by simpa using hdone)
  | failed htrace _ | ended htrace _ =>
    obtain ⟨front, rfl, hrest⟩ := exists_front (by simp) heq
    exact absurd (by simp [hrest]) (htrace.not_handed k c)
  | handed htrace _ =>
    obtain ⟨front, rfl, hrest⟩ := exists_front (by simp) heq
    cases front with
    | nil =>
      cases hrest
      exact ⟨rfl, rfl, [], rfl, by simp, by simp⟩
    | cons first front =>
      -- a second connection would be handed over by a stream that has none
      cases hrest
      exact absurd (by simp) (htrace.not_handed k c)
  | dropped _ htrace _ => exact absurd (by simp [heq]) (htrace.not_handed k c)

/-- **The end is not wasted**: reported before any error, it hands the connection over. -/
theorem handed_of_done (h : Trace key connection true events)
    (heq : events = front ++ .reported .done :: back) (herror : .reported .error ∉ front)
    (hdone : .reported .done ∉ front) : ∃ later, back = .handed key connection :: later := by
  generalize hheld : true = held at h
  induction h generalizing front with
  | nil => simp at heq
  | given polled _ ih =>
    cases front with
    | nil => cases heq
    | cons first front =>
      cases heq
      exact ih rfl (by simpa using herror) (by simpa using hdone) hheld
  | reported _ hne _ ih =>
    cases front with
    | nil =>
      cases heq
      exact absurd rfl hne
    | cons first front =>
      cases heq
      exact ih rfl (List.not_mem_of_not_mem_cons herror) (List.not_mem_of_not_mem_cons hdone)
        hheld
  | failed _ _ =>
    cases front with
    | nil => cases heq
    | cons first front =>
      cases heq
      exact absurd List.mem_cons_self herror
  | ended _ _ => cases hheld
  | handed _ _ =>
    cases front with
    | nil =>
      cases heq
      exact ⟨_, rfl⟩
    | cons first front =>
      rw [← (List.cons.inj heq).1] at hdone
      exact absurd List.mem_cons_self hdone
  | dropped hnone _ _ => exact absurd (by simp [heq]) (hnone .done)

end Trace

/-! ## Every run is a trace -/

section Runs

variable {μ κ : Type} {key : PoolKey} {connection : Connection κ}

/-- The slot of a stream that still has the connection, or has not. -/
def slotOf (key : PoolKey) (connection : Connection κ) : Bool → Option (PoolSlot κ)
  | true => some ⟨key, some connection⟩
  | false => none

/-- Nothing but answers. -/
def Quiet (events : List (Event κ)) : Prop := events = [] ∨ ∃ polled, events = [.given polled]

/-- **What one step can do**: leave the stream alone, drop it, or poll it. -/
theorem ResponseBody.step_cases (machine : Layers μ) (body : ResponseBody μ κ) (act : Act) :
    ((body.step machine act).1.stream = body.stream ∧ Quiet (body.step machine act).2) ∨
    ((body.step machine act).1.stream = .dropped ∧ Quiet (body.step machine act).2) ∨
    ((body.step machine act).1.stream = body.stream.poll.1 ∧
      (body.step machine act).2 = body.stream.poll.2.1) := by
  unfold step
  cases body.control with
  | idle =>
    cases act with
    | drop => exact .inr (.inl ⟨rfl, .inl rfl⟩)
    | poll fired =>
      left
      simp only [begin]
      split
      · exact ⟨rfl, .inr ⟨_, rfl⟩⟩
      · split_ifs
        · exact ⟨rfl, .inr ⟨_, rfl⟩⟩
        · exact ⟨rfl, .inl rfl⟩
      · exact ⟨rfl, .inl rfl⟩
  | layers told =>
    simp only [tellLayers]
    cases (machine.tell body.layers told).2 with
    | poll => exact .inl ⟨rfl, .inl rfl⟩
    | answer polled => exact .inl ⟨rfl, .inr ⟨_, rfl⟩⟩
    | discard polled => exact .inr (.inl ⟨rfl, .inr ⟨_, rfl⟩⟩)
  | stream =>
    simp only [pollStream]
    right
    right
    cases body.stream.poll.2.2 with
    | none => exact ⟨rfl, rfl⟩
    | some polled => exact ⟨rfl, rfl⟩
  | dropped => exact .inl ⟨rfl, .inl rfl⟩

variable {held : Bool}

theorem Trace.quiet {events rest : List (Event κ)} (hquiet : Quiet events)
    (h : Trace key connection held rest) : Trace key connection held (events ++ rest) := by
  rcases hquiet with rfl | ⟨polled, rfl⟩
  · exact h
  · exact h.given polled

theorem not_reported_run (machine : Layers μ) {body : ResponseBody μ κ}
    (h : body.stream = .dropped) (acts : List Act) (polled : Polled) :
    .reported polled ∉ body.run machine acts := by
  induction acts generalizing body with
  | nil => simp [ResponseBody.run]
  | cons act acts ih =>
    rw [ResponseBody.run, List.mem_append, not_or]
    rcases body.step_cases machine act with ⟨hstream, hquiet⟩ | ⟨hstream, hquiet⟩ |
      ⟨hstream, hevents⟩
    · refine ⟨?_, ih (hstream.trans h)⟩
      rcases hquiet with heq | ⟨answer, heq⟩ <;> simp [heq]
    · refine ⟨?_, ih hstream⟩
      rcases hquiet with heq | ⟨answer, heq⟩ <;> simp [heq]
    · rw [h] at hstream hevents
      refine ⟨?_, ih hstream⟩
      rw [hevents]
      simp [ReleasingStream.poll, ReleasingStream.dropped]

theorem trace_poll {stream : ReleasingStream κ} (h : stream.slot = slotOf key connection held)
    {rest : List (Event κ)} (hrest : ∀ held, stream.poll.1.slot = slotOf key connection held →
      Trace key connection held rest) : Trace key connection held (stream.poll.2.1 ++ rest) := by
  obtain ⟨inner, slot⟩ := stream
  cases inner with
  | nil => exact hrest held h
  | cons polled inner =>
    cases polled with
    | pending | data | trailers => exact .reported (by simp) (by simp) (hrest held h)
    | error => exact .failed (hrest false rfl)
    | done =>
      subst h
      cases held with
      | false => exact .ended (hrest false rfl)
      | true => exact .handed (hrest false rfl)

/-- **Every run is a trace.** -/
theorem trace_run (machine : Layers μ) {body : ResponseBody μ κ}
    (h : body.stream.slot = slotOf key connection held) (acts : List Act) :
    Trace key connection held (body.run machine acts) := by
  induction acts generalizing body held with
  | nil => exact .nil
  | cons act acts ih =>
    rw [ResponseBody.run]
    rcases body.step_cases machine act with ⟨hstream, hquiet⟩ | ⟨hstream, hquiet⟩ |
      ⟨hstream, hevents⟩
    · exact .quiet hquiet (ih (by rw [hstream, h]))
    · have htrace : Trace key connection false
          ((body.step machine act).1.run machine acts) := ih (by rw [hstream]; rfl)
      refine .quiet hquiet ?_
      cases held with
      | false => exact htrace
      | true => exact htrace.dropped (not_reported_run machine hstream acts)
    · rw [hevents]
      exact trace_poll h fun held hheld => ih (by rw [hstream, hheld])

/-- **A half-read socket does not reach the pool.** For every body, layers, deadline and caller: at
most one connection is handed over; where one is, it is the response's own, the wrapped body has
just reported its end, and neither an error nor an end was reported before. And an end that is
reported so does hand it over. -/
theorem half_read_not_pooled (machine : Layers μ) (layers : μ) (body : List Polled) (key : PoolKey)
    (connection : Connection κ) (deadline : Bool) (acts : List Act) :
    let events := (ResponseBody.boundedBy (returningToPool body key connection) layers
      deadline).run machine acts
    (handedIn events).length ≤ 1 ∧
    (∀ front back k c, events = front ++ .handed k c :: back → k = key ∧ c = connection ∧
      ∃ before, front = before ++ [.reported .done] ∧ .reported .error ∉ before ∧
        .reported .done ∉ before) ∧
    (∀ front back, events = front ++ .reported .done :: back → .reported .error ∉ front →
      .reported .done ∉ front → ∃ later, back = .handed key connection :: later) := by
  intro events
  have htrace : Trace key connection true events := trace_run machine rfl acts
  refine ⟨htrace.length_handedIn_le, ?_, ?_⟩
  · intro front back k c heq
    have hat := htrace.handedAt heq
    exact ⟨hat.key_eq, hat.connection_eq, hat.after_end⟩
  · intro front back heq herror hdone
    exact htrace.handed_of_done heq herror hdone

end Runs

end Chromulate.Http.Releasing
