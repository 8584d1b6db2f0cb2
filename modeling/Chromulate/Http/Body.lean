import Chromulate.Cache.HttpCache
import Chromulate.Compression.Chain
import Chromulate.Lib.Loop

/-!
# Reading a body to its end

`chromulate-http/src/body.rs` and `Engine::finish`: the body of an HTTP/1.1 response, as the caller
gets it. From the wire outwards it is hyper's body, `ReleasingStream`, which puts the connection
back when that ends, what the cache has wrapped it in, a decoder for each coding, and
`BoundedStream` with the request's deadline. A poll goes down through them as far as it has to, and
what it brings comes up again; the model takes that one call or return at a time (`Reading.step`),
so that a decoder may read its source as often as it likes.

Putting the connection back and storing the entry both wait for the wire's own end. The caller sees
the end of the outermost layer. `finished_iff` says when the one means the other: when the decoders,
before they end, ask for more chunks than the wire has (`Ends`). What they ask for follows from the
codec, the codings of the field and the chunks, and without a decoder it is always more. A decoder
need not ask so often. It stops at the end mark of its coding, and `end_mark_ends_reading` is a
whole body read without an error whose connection is not put back and which is not stored.
-/

namespace Chromulate.Http

open Compression

/-- What hyper's body brings before it ends. -/
inductive Arrival where
  | pending
  | data (chunk : Bytes)
  | trailers
  | failure
  deriving DecidableEq

/-- What polling a body has brought about. -/
inductive Event where
  /-- `PoolSlot::release`. -/
  | released
  | stored (op : Cache.StoreOp)
  /-- The caller has been answered. -/
  | given (outcome : Outcome)
  deriving DecidableEq

/-! ## Below the decoders -/

/-- What the caller of a body sees of a frame. -/
def Outcome.ofFrame : Frame → Option Outcome
  | .data chunk => some (.data chunk)
  | .trailers => none
  | .error => some (.error .body)
  | .done => some .done

/-- `ReleasingStream` around hyper's body, and what the cache has made of it. -/
structure Source where
  incoming : List Arrival
  /-- The connection is still to be put back. -/
  slot : Bool
  body : Cache.Body

/-- Whether a body has to poll the one it is wrapped around. -/
def readsOn : Cache.Body → Bool
  | .incoming _ => true
  | .fixed _ => false
  | .recording _ _ => true
  | .draining draining _ => draining.innerOpen

namespace Source

/-- A frame, through what the cache has made of the body. -/
def pass (source : Source) (frame : Frame) : Source × List Event × Option Outcome :=
  let (body, ops, seen) := source.body.poll frame
  ({ source with body := body }, ops.map .stored, seen.bind Outcome.ofFrame)

/-- One poll of hyper's body, and what comes of it; without an outcome, the body is polled again.
Trailers are dropped on the way. -/
def poll (source : Source) : Source × List Event × Option Outcome :=
  if readsOn source.body then
    match source.incoming with
    | .pending :: rest => ({ source with incoming := rest }, [], some .pending)
    | .trailers :: rest => ({ source with incoming := rest }, [], none)
    | .data chunk :: rest => pass { source with incoming := rest } (.data chunk)
    | .failure :: rest => pass { source with incoming := rest, slot := false } .error
    | [] =>
      let (after, events, outcome) := pass { source with slot := false } .done
      (after, (if source.slot then [.released] else []) ++ events, outcome)
  else source.pass .done

end Source

/-! ## The whole body -/

/-- What a chain of decoders brings about for its caller. -/
def Event.ofChain : Compression.Event → Option Event
  | .wire _ => none
  | .given outcome => some (.given outcome)

/-- A body being read. -/
structure Reading (D : Type*) where
  source : Source
  chain : Chain D
  /-- `BoundedStream`, and whether it has expired. -/
  bounded : Option Bool

namespace Reading

variable {D : Type*} (codec : Codec D) (guard : ExpansionGuard)

/-- `BoundedStream::poll_next`, when the caller polls; `fired` is whether the timer has. -/
def begin (reading : Reading D) (fired : Bool) : Reading D × List Event :=
  match reading.bounded with
  | some true => (reading, [.given .done])
  | some false =>
    if fired then ({ reading with bounded := some true }, [.given (.error .timeout)])
    else ({ reading with chain.control := .polling }, [])
  | none => ({ reading with chain.control := .polling }, [])

/-- What is below the decoders is polled. -/
def pollSource (reading : Reading D) : Reading D × List Event :=
  let (source, events, outcome) := reading.source.poll
  ({ reading with
      source := source
      chain.control := outcome.elim .polling .answered }, events)

/-- One step of a poll. -/
def step (reading : Reading D) (fired : Bool) : Reading D × List Event :=
  match reading.chain.control, reading.chain.below with
  | .idle, _ => reading.begin fired
  | .polling, [] => reading.pollSource
  | _, _ =>
    -- the step is a decoder's, so it does not matter what the source would answer
    let (chain, events) := reading.chain.step codec guard .pending
    ({ reading with chain := chain }, events.filterMap Event.ofChain)

/-- `Engine::finish`, as far as the body goes. -/
def finish (headers : HeaderMap) (source : Source) (bounded : Bool) :
    Except BodyError (HeaderMap × Reading D) :=
  match decodeChain headers with
  | .error error => .error error
  | .ok (headers, decoders) => .ok (headers,
      { source := source
        chain := Chain.new codec decoders
        bounded := if bounded then some false else none })

/-- A turn of the caller's loop: it ends with the end of the body. -/
def turn (reading : Reading D) (fired : Bool) : List Event × (Reading D ⊕ Unit) :=
  let (after, events) := reading.step codec guard fired
  (events, if events.any (fun | .given .done => true | _ => false) then .inr () else .inl after)

/-- A body polled until it reports its end. -/
def read (reading : Reading D) (timer : List Bool) : List Event × Option Unit :=
  let (records, ended) := Loop.run (turn codec guard) reading timer
  (records.flatten, ended)

end Reading

/-! ## What decoders ask of a wire -/

section Demand

variable {D : Type*} (codec : Codec D) (wire : List Bytes)

/-- Some decoders, the outermost first and `none` once one has ended, are read from once, when the
wire has been asked for so many chunks: the answer, the decoders after it, and how often the wire
has been asked then. Without an answer, a decoder has been told something and is to be read again;
empty chunks are passed over. -/
def demand : List (Option D) → Nat → Option (Option Bytes) × List (Option D) × Nat
  | [], asked => (some wire[asked]?, [], asked + 1)
  | none :: below, asked => (some none, none :: below, asked)
  | some decoder :: below, asked =>
    match codec.read decoder with
    | .fails => (some none, none :: below, asked)
    | .gives [] _ => (some none, none :: below, asked)
    | .gives chunk next => (some (some chunk), some next :: below, asked)
    | .asks told =>
      match demand below asked with
      | (none, below, asked) => (none, some decoder :: below, asked)
      | (some (some []), below, asked) => (none, some decoder :: below, asked)
      | (some answer, below, asked) => (none, some (told answer) :: below, asked)

/-- Read from until they end, the decoders have asked the wire for `n` chunks in all. -/
inductive Ends : List (Option D) → Nat → Nat → Prop
  | last {decoders after : List (Option D)} {asked n : Nat} :
      demand codec wire decoders asked = (some none, after, n) → Ends decoders asked n
  | more {decoders after : List (Option D)} {answer : Option (Option Bytes)} {asked later n : Nat} :
      demand codec wire decoders asked = (answer, after, later) → answer ≠ some none →
      Ends after later n → Ends decoders asked n

/-- The codings of a response that need a decoder, in the order of the field. -/
def codingsOf (headers : HeaderMap) : List ContentCoding :=
  ((tokens (headers.getAll .contentEncoding)).filterMap ContentCoding.parse).filter
    fun coding => coding ≠ .identity

/-- The decoders of a response, read from until they end, have asked for `n` chunks. -/
def Asks (headers : HeaderMap) (n : Nat) : Prop :=
  Ends codec wire ((codingsOf headers).map fun coding => some (codec.start coding)) 0 n

end Demand

/-! ## What the caller's end means -/

/-- What the cache makes of a response's body. -/
inductive Wrapper where
  | plain
  | recording (commit : Cache.Commit)
  | draining (stored : Bytes)

def Wrapper.body (length : Option Nat) : Wrapper → Cache.Body
  | .plain => .incoming length
  | .recording commit => .recording ⟨[], some commit⟩ length
  | .draining stored => .draining ⟨true, some stored⟩ (some stored.length)

/-- The body of a response as the decoders get it. -/
def Wrapper.source (wrapper : Wrapper) (incoming : List Arrival) (length : Option Nat) : Source :=
  ⟨incoming, true, wrapper.body length⟩

/-- The chunks on the wire. -/
def chunksOf (incoming : List Arrival) : List Bytes :=
  incoming.filterMap fun
    | .data chunk => some chunk
    | _ => none

/-- The bookkeeping is done: the connection is put back, and the entry stored if there is to be one
and the limits allow it. -/
structure Bookkept (wrapper : Wrapper) (incoming : List Arrival) (events : List Event) : Prop where
  released : .released ∈ events
  stored : ∀ commit, wrapper = .recording commit →
    (chunksOf incoming).flatten.length ≤ commit.limit →
    Cache.declaresItsLength commit.headers (chunksOf incoming).flatten.length →
    .stored (.put commit.key (commit.entry (chunksOf incoming).flatten)) ∈ events

/-- What is below the decoders is read to its end before they end: they ask for a chunk after the
last one. A `304` is read to its end before its first answer, unless it fails. -/
def ReadOut {D : Type*} (codec : Codec D) (headers : HeaderMap) (wrapper : Wrapper)
    (incoming : List Arrival) : Prop :=
  match wrapper with
  | .draining stored => .failure ∉ incoming ∧ ∃ n, Asks codec [stored] headers n ∧ 0 < n
  | .plain | .recording _ =>
    ∃ n, Asks codec (chunksOf incoming) headers n ∧ (chunksOf incoming).length < n

/-! ### What one reading asks for -/

section Demand

variable {D : Type*} {codec : Codec D} {guard : ExpansionGuard} {wire : List Bytes}
  {start : List (Option D)} {chain : Chain D} {asked n : Nat}

theorem Ends.unique {decoders : List (Option D)} {m : Nat} (h : Ends codec wire decoders asked n)
    (h' : Ends codec wire decoders asked m) : n = m := by
  induction h with
  | last hdemand =>
    cases h' with
    | last hdemand' =>
      rw [hdemand] at hdemand'
      cases hdemand'
      rfl
    | more hdemand' hmore _ =>
      rw [hdemand] at hdemand'
      cases hdemand'
      exact absurd rfl hmore
  | more hdemand hmore _ ih =>
    cases h' with
    | last hdemand' =>
      rw [hdemand] at hdemand'
      cases hdemand'
      exact absurd rfl hmore
    | more hdemand' _ hrest =>
      rw [hdemand] at hdemand'
      cases hdemand'
      exact ih hrest

/-- What an answer tells the decoder above. -/
def Outcome.answer : Outcome → Option (Option Bytes)
  | .data chunk => some (some chunk)
  | .done => some none
  | _ => none

/-- A decoder that waits for an answer, and has it. -/
def hear (codec : Codec D) (decoder : D) : Option (Option Bytes) → D
  | none => decoder
  | some (some []) => decoder
  | some told => codec.resume decoder told

/-- A decoder that needs what is below it. -/
def Needy (codec : Codec D) (decoder : Option D) : Prop :=
  ∃ waiting told, decoder = some waiting ∧ codec.read waiting = .asks told

/-- Decoders that wait pass a demand down to the last of them, which hears the answer. -/
theorem demand_through (wire : List Bytes) {outer : List (Option D)}
    (houter : ∀ decoder ∈ outer, Needy codec decoder) {decoder : D} {told : Option Bytes → D}
    (hasks : codec.read decoder = .asks told) (below : List (Option D)) (asked : Nat) :
    demand codec wire (outer ++ some decoder :: below) asked =
      (none, outer ++ some (hear codec decoder (demand codec wire below asked).1) ::
        (demand codec wire below asked).2.1, (demand codec wire below asked).2.2) := by
  induction outer with
  | nil =>
    simp only [List.nil_append, demand, hasks]
    split
    · rename_i hdemand
      rw [hdemand, hear]
    · rename_i hdemand
      rw [hdemand, hear]
    · rename_i answer _ _ hfull hdemand
      rw [hdemand]
      simp only [hear, Codec.resume, hasks]
  | cons first outer ih =>
    obtain ⟨waiting, told', rfl, hasks'⟩ := houter first List.mem_cons_self
    rw [List.cons_append, demand]
    simp only [hasks', ih fun decoder hmem => houter decoder (List.mem_cons_of_mem _ hmem),
      List.cons_append]

/-- The decoders of some stages. -/
def decodersAt (stages : List (Stage D)) : List (Option D) := stages.map (·.layer.reader)

/-- The decoders of a chain, the outermost first. -/
def inOrder (chain : Chain D) : List (Option D) := decodersAt (chain.waiting.reverse ++ chain.below)

/-- The decoders of a chain, once the answer that is on its way has been heard. -/
def heard (codec : Codec D) (chain : Chain D) : List (Option D) :=
  match chain.control with
  | .answered outcome => inOrder (chain.tell codec outcome).1
  | _ => inOrder chain

/-- A poll has brought the decoders to where demands on `start` bring them, and no further. -/
inductive Follows (codec : Codec D) (wire : List Bytes) (start : List (Option D))
    (chain : Chain D) (asked : Nat) : Prop
  | ended : chain.control = .answered .done → chain.waiting = [] →
      Ends codec wire start 0 asked → Follows codec wire start chain asked
  | underWay : (∀ stage ∈ chain.waiting, Needy codec stage.layer.reader) →
      (chain.control = .answered .done → chain.waiting ≠ []) →
      (∀ n, Ends codec wire (heard codec chain) asked n → Ends codec wire start 0 n) →
      Follows codec wire start chain asked

theorem reader_tell (layer : Layer D) {outcome : Outcome}
    (hgood : ∀ error, outcome ≠ .error error) :
    (layer.tell codec outcome).1.reader =
      layer.reader.map (hear codec · (Outcome.answer outcome)) := by
  cases outcome with
  | pending => cases h : layer.reader <;> simp [Layer.tell, Outcome.answer, hear, h]
  | data chunk =>
    cases chunk with
    | nil => cases h : layer.reader <;> simp [Layer.tell, Outcome.answer, hear, h]
    | cons byte chunk => rfl
  | error error => exact absurd rfl (hgood error)
  | done => rfl

/-- An answer from below the stages that wait. -/
theorem Follows.answered (hcontrol : chain.control = .polling)
    (h : Follows codec wire start chain asked) {outcome : Outcome} {inner : List (Stage D)}
    {later : Nat}
    (hdemand : demand codec wire (decodersAt chain.below) asked =
      (Outcome.answer outcome, decodersAt inner, later))
    (hanswer : Outcome.answer outcome ≠ none) :
    Follows codec wire start { chain with below := inner, control := .answered outcome } later := by
  cases h with
  | ended hdone => simp [hcontrol] at hdone
  | underWay hneedy _ hends =>
    obtain ⟨total, waiting, below, control⟩ := chain
    dsimp only at hcontrol hneedy hends hdemand
    subst hcontrol
    cases waiting with
    | nil =>
      by_cases hdone : outcome = .done
      · subst hdone
        exact .ended rfl rfl (hends later (.last hdemand))
      · refine .underWay hneedy (fun h => by (cases h; exact absurd rfl hdone)) fun n hn => ?_
        refine hends n (.more hdemand (fun h => hdone ?_) hn)
        cases outcome <;> simp [Outcome.answer] at h ⊢
    | cons stage outer =>
      obtain ⟨decoder, told, hreader, hasks⟩ := hneedy stage List.mem_cons_self
      refine .underWay hneedy (fun _ => by simp) fun n hn => hends n ?_
      have houter : ∀ decoder ∈ decodersAt outer.reverse, Needy codec decoder := by
        intro decoder hmem
        obtain ⟨stage, hstage, rfl⟩ := List.mem_map.mp hmem
        exact hneedy stage (List.mem_cons_of_mem _ (List.mem_reverse.mp hstage))
      have hgood : ∀ error, outcome ≠ .error error := by
        rintro error rfl
        exact hanswer rfl
      have hthrough := demand_through wire houter hasks (decodersAt below) asked
      rw [hdemand] at hthrough
      refine .more ?_ (Option.some_ne_none none).symm hn
      simpa [heard, inOrder, Chain.tell, decodersAt, hreader, reader_tell _ hgood] using hthrough

theorem heard_pending (total : Nat) (waiting below : List (Stage D)) :
    heard codec ⟨total, waiting, below, .answered .pending⟩ =
      inOrder ⟨total, waiting, below, .polling⟩ := by
  cases waiting with
  | nil => rfl
  | cons stage outer => simp [heard, inOrder, Chain.tell, Layer.tell]

/-- A poll begins, goes on, or has to wait. -/
theorem Follows.move (hcontrol : chain.control = .idle ∨ chain.control = .polling)
    {control : Control} (hquiet : control = .polling ∨ control = .answered .pending)
    (h : Follows codec wire start chain asked) :
    Follows codec wire start { chain with control := control } asked := by
  cases h with
  | ended hdone => simp [hdone] at hcontrol
  | underWay hneedy _ hends =>
    have hbefore : heard codec chain = inOrder chain := by
      rcases hcontrol with hcontrol | hcontrol <;> simp [heard, hcontrol]
    rw [hbefore] at hends
    rcases hquiet with rfl | rfl
    · exact .underWay hneedy (fun h => by cases h) hends
    · refine .underWay hneedy (fun h => by cases h) ?_
      rwa [heard_pending]

/-- An answer goes up, and is heard or given to the caller. -/
theorem Follows.tell {outcome : Outcome} (hcontrol : chain.control = .answered outcome)
    (hgood : ∀ error, outcome ≠ .error error) (hmore : outcome = .done → chain.waiting ≠ [])
    (h : Follows codec wire start chain asked) :
    Follows codec wire start (chain.tell codec outcome).1 asked := by
  cases h with
  | ended hdone hnone =>
    rw [hcontrol] at hdone
    cases hdone
    exact absurd hnone (hmore rfl)
  | underWay hneedy _ hends =>
    obtain ⟨total, waiting, below, control⟩ := chain
    dsimp only at hcontrol hneedy hends
    subst hcontrol
    cases waiting with
    | nil => exact .underWay hneedy (fun h => by cases h) hends
    | cons stage outer =>
      have houter : ∀ stage ∈ outer, Needy codec stage.layer.reader := fun stage hmem =>
        hneedy stage (List.mem_cons_of_mem _ hmem)
      cases outcome with
      | pending =>
        rw [heard_pending] at hends
        refine .underWay houter (fun h => by cases h) ?_
        simpa [Chain.tell, Layer.tell, heard_pending, inOrder] using hends
      | data chunk =>
        have hpolling : (stage.layer.tell codec (.data chunk)).2 = none := by
          cases chunk <;> rfl
        refine .underWay houter (fun h => ?_) fun n hn => hends n ?_
        · simp [Chain.tell, hpolling] at h
        · simpa [heard, Chain.tell, hpolling] using hn
      | error error => exact absurd rfl (hgood error)
      | done => exact .underWay houter (fun h => by cases h) hends

theorem demand_of_poll (wire : List Bytes) {layer after : Layer D} {total : Nat} {outcome : Outcome}
    (h : layer.poll codec guard total = (after, some outcome))
    (hgood : ∀ error, outcome ≠ .error error) (below : List (Option D)) (asked : Nat) :
    demand codec wire (layer.reader :: below) asked =
        (Outcome.answer outcome, after.reader :: below, asked) ∧ Outcome.answer outcome ≠ none := by
  unfold Layer.poll at h
  split at h
  · rename_i hreader
    cases h
    exact ⟨by rw [hreader, demand]; rfl, by simp [Outcome.answer]⟩
  · rename_i decoder hreader
    split at h
    · cases h
    · cases h
      exact absurd rfl (hgood _)
    · rename_i hread
      cases h
      exact ⟨by simp [hreader, demand, hread, Outcome.answer], by simp [Outcome.answer]⟩
    · rename_i chunk next hchunk hread
      dsimp only at h
      split at h
      · cases h
        exact absurd rfl (hgood _)
      · cases h
        refine ⟨?_, by simp [Outcome.answer]⟩
        rw [hreader, demand, hread]
        cases chunk with
        | nil => exact absurd rfl hchunk
        | cons byte chunk => rfl

/-- A decoder that does not answer needs what is below it. -/
theorem needy_of_poll {layer after : Layer D} {total : Nat}
    (h : layer.poll codec guard total = (after, none)) :
    after = layer ∧ Needy codec layer.reader := by
  unfold Layer.poll at h
  split at h
  · cases h
  · rename_i decoder hreader
    split at h
    · rename_i told hread
      cases h
      exact ⟨rfl, decoder, told, hreader, hread⟩
    · cases h
    · cases h
    · cases h

theorem Follows.poll (hcontrol : chain.control = .polling) {stage : Stage D}
    {inner : List (Stage D)} (hbelow : chain.below = stage :: inner) (answer : Outcome)
    (h : Follows codec wire start chain asked) :
    (∃ error, (chain.poll codec guard answer).1.control = .answered (.error error)) ∨
      Follows codec wire start (chain.poll codec guard answer).1 asked := by
  unfold Chain.poll
  rw [hbelow]
  cases hpoll : stage.layer.poll codec guard chain.encodedSoFar with
  | mk layer outcome =>
    cases outcome with
    | none =>
      obtain ⟨rfl, hneeds⟩ := needy_of_poll hpoll
      right
      cases h with
      | ended hdone => simp [hcontrol] at hdone
      | underWay hneedy _ hends =>
        simp only [hpoll]
        refine .underWay (List.forall_mem_cons.mpr ⟨hneeds, hneedy⟩) (by simp) fun n hn => ?_
        refine hends n ?_
        simpa [heard, hcontrol, inOrder, hbelow] using hn
    | some outcome =>
      simp only [hpoll]
      by_cases hgood : ∀ error, outcome ≠ .error error
      · right
        obtain ⟨hdemand, hanswer⟩ := demand_of_poll wire hpoll hgood (decodersAt inner) asked
        exact h.answered hcontrol (by rw [hbelow]; exact hdemand) hanswer
      · left
        obtain ⟨error, rfl⟩ : ∃ error, outcome = .error error := by simpa using hgood
        exact ⟨error, rfl⟩

end Demand

/-! ### What is below the decoders -/

/-- A poll of a source fails, does not answer, or answers with the next chunk of the wire or with
the end of it; unless it fails, it keeps what is said of the source. -/
def Fed (wire : List Bytes) (Inv : Source → List Event → Nat → Prop) (source : Source)
    (past : List Event) (asked : Nat) : Prop :=
  (∃ error, source.poll.2.2 = some (.error error)) ∨
  (source.poll.2.2.bind Outcome.answer = none ∧
    Inv source.poll.1 (past ++ source.poll.2.1) asked) ∨
  (source.poll.2.2.bind Outcome.answer = some wire[asked]? ∧
    Inv source.poll.1 (past ++ source.poll.2.1) (asked + 1))

/-- What a source keeps, given how often it has been asked. -/
structure Feeds (wire : List Bytes) (Inv : Source → List Event → Nat → Prop) : Prop where
  poll : ∀ {source past asked}, Inv source past asked → Fed wire Inv source past asked
  given : ∀ {source past asked} (outcome), Inv source past asked →
    Inv source (past ++ [.given outcome]) asked

/-- A body that shows its caller what it reads. -/
inductive Transparent : Cache.Body → Prop
  | incoming (length : Option Nat) : Transparent (.incoming length)
  | recording (recording : Cache.Recording) (length : Option Nat) :
      Transparent (.recording recording length)

section

variable {source : Source} {past : List Event} {wire : List Bytes} {asked : Nat}

theorem Transparent.readsOn {body : Cache.Body} (h : Transparent body) : readsOn body = true := by
  cases h <;> rfl

theorem Transparent.pass {body : Cache.Body} (h : Transparent body) (frame : Frame) :
    Transparent (body.poll frame).1 ∧
      (body.poll frame).2.2.bind Outcome.ofFrame = Outcome.ofFrame frame := by
  cases h with
  | incoming length => exact ⟨.incoming length, rfl⟩
  | recording recording length => exact ⟨.recording _ length, by cases frame <;> rfl⟩

/-- While a body is transparent and has not failed, it has been asked for the chunks that are gone,
and its connection is put back when it is asked for one more. -/
structure Flows (wire : List Bytes) (source : Source) (past : List Event) (asked : Nat) : Prop where
  transparent : Transparent source.body
  left : chunksOf source.incoming = wire.drop asked
  held : source.slot = true → asked ≤ wire.length ∧ .released ∉ past
  ended : source.slot = false → wire.length < asked ∧ .released ∈ past

theorem Flows.released_iff (h : Flows wire source past asked) :
    .released ∈ past ↔ wire.length < asked := by
  cases hslot : source.slot with
  | true => exact iff_of_false (h.held hslot).2 (Nat.not_lt_of_le (h.held hslot).1)
  | false => exact iff_of_true (h.ended hslot).2 (h.ended hslot).1

/-- What a poll writes while more is to come. -/
theorem Flows.go_on (h : Flows wire source past asked) {body : Cache.Body}
    (htransparent : Transparent body) (ops : List Cache.StoreOp) {rest : List Arrival}
    {later : Nat} (hleft : chunksOf rest = wire.drop later)
    (hlater : later = asked ∨ later = asked + 1 ∧ asked < wire.length) :
    Flows wire ⟨rest, source.slot, body⟩ (past ++ ops.map .stored) later := by
  refine ⟨htransparent, hleft, fun hheld => ?_, fun hended => ?_⟩
  · have hold := h.held hheld
    exact ⟨by omega, by simpa using hold.2⟩
  · have hold := h.ended hended
    exact ⟨by omega, List.mem_append_left _ hold.2⟩

theorem Flows.poll (h : Flows wire source past asked) :
    Fed wire (Flows wire) source past asked := by
  have htransparent := h.transparent
  have hleft := h.left
  unfold Fed Source.poll
  rw [if_pos htransparent.readsOn]
  cases hincoming : source.incoming with
  | nil =>
    rw [hincoming] at hleft
    have hpast : wire.length ≤ asked := List.drop_eq_nil_iff.mp hleft.symm
    have hpass := htransparent.pass .done
    simp only [Source.pass, hpass.2]
    refine Or.inr (Or.inr ⟨by simp [Outcome.ofFrame, Outcome.answer, hpast], hpass.1, ?_,
      by simp, fun _ => ⟨by omega, ?_⟩⟩)
    · rw [List.drop_eq_nil_of_le (by omega)]
      rfl
    · cases hslot : source.slot with
      | true => simp
      | false => exact List.mem_append_left _ (h.ended hslot).2
  | cons arrival rest =>
    rw [hincoming] at hleft
    cases arrival with
    | pending | trailers => exact Or.inr (Or.inl ⟨rfl, h.go_on htransparent [] hleft (.inl rfl)⟩)
    | data chunk =>
      have hlt : asked < wire.length := by
        by_contra hge
        rw [List.drop_eq_nil_of_le (by omega)] at hleft
        cases hleft
      rw [List.drop_eq_getElem_cons hlt] at hleft
      obtain ⟨hchunk, hrest⟩ := List.cons.inj hleft
      have hpass := htransparent.pass (.data chunk)
      simp only [Source.pass, hpass.2]
      refine Or.inr (Or.inr ⟨?_, h.go_on hpass.1 _ hrest (.inr ⟨rfl, hlt⟩)⟩)
      simp [Outcome.ofFrame, Outcome.answer, hchunk, hlt]
    | failure =>
      have hpass := htransparent.pass .error
      simp only [Source.pass, hpass.2]
      exact Or.inl ⟨.body, rfl⟩

theorem Flows.given (h : Flows wire source past asked) (outcome : Outcome) :
    Flows wire source (past ++ [.given outcome]) asked :=
  ⟨h.transparent, h.left, by simpa using h.held, by simpa using h.ended⟩

/-! ### What is recorded -/

/-- The entry a commit makes of the wire's bytes. -/
def stores (commit : Cache.Commit) (total : Bytes) : Event :=
  .stored (.put commit.key (commit.entry total))

/-- A recording has run over its limit, has come to its end, or holds what has arrived so far. -/
inductive Records (commit : Cache.Commit) (total : Bytes) (source : Source) (past : List Event) :
    Prop
  | beyond : commit.limit < total.length → Records commit total source past
  | ended (recording : Cache.Recording) (length : Option Nat) :
      source.body = .recording recording length → recording.commit = none →
      source.incoming = [] →
      (Cache.declaresItsLength commit.headers total.length → stores commit total ∈ past) →
      Records commit total source past
  | holding (recording : Cache.Recording) (length : Option Nat) :
      source.body = .recording recording length → recording.commit = some commit →
      recording.buffered ++ (chunksOf source.incoming).flatten = total → source.slot = true →
      Records commit total source past

variable {commit : Cache.Commit} {total : Bytes}

theorem flatten_chunksOf_data (chunk : Bytes) (rest : List Arrival) :
    (chunksOf (.data chunk :: rest)).flatten = chunk ++ (chunksOf rest).flatten := rfl

theorem Records.poll_holding {recording : Cache.Recording} {length : Option Nat}
    (hbody : source.body = .recording recording length) (hcommit : recording.commit = some commit)
    (htotal : recording.buffered ++ (chunksOf source.incoming).flatten = total)
    (hslot : source.slot = true) (hgood : ∀ error, source.poll.2.2 ≠ some (.error error)) :
    Records commit total source.poll.1 (past ++ source.poll.2.1) := by
  obtain ⟨incoming, slot, body⟩ := source
  obtain ⟨buffered, pending⟩ := recording
  dsimp only at hbody hcommit htotal hslot
  subst hbody hcommit hslot
  cases incoming with
  | nil =>
    rw [chunksOf, List.filterMap_nil, List.flatten_nil, List.append_nil] at htotal
    subst htotal
    refine .ended ⟨[], none⟩ length ?_ rfl rfl fun hdeclares => ?_
    · simp only [Source.poll, readsOn, if_true, Source.pass, Cache.Body.poll,
        Cache.Recording.poll]
      split <;> rfl
    · simp [Source.poll, readsOn, Source.pass, Cache.Body.poll, Cache.Recording.poll, hdeclares,
        stores]
  | cons arrival rest =>
    cases arrival with
    | pending | trailers => exact .holding _ length rfl rfl htotal rfl
    | failure => exact absurd rfl (hgood .body)
    | data chunk =>
      rw [flatten_chunksOf_data, ← List.append_assoc] at htotal
      by_cases hover : commit.limit < buffered.length + chunk.length
      · refine .beyond ?_
        rw [← htotal, List.length_append, List.length_append]
        omega
      · refine .holding ⟨buffered ++ chunk, some commit⟩ length ?_ rfl htotal rfl
        simp [Source.poll, readsOn, Source.pass, Cache.Body.poll, Cache.Recording.poll, hover]

theorem Records.poll (h : Records commit total source past)
    (hgood : ∀ error, source.poll.2.2 ≠ some (.error error)) :
    Records commit total source.poll.1 (past ++ source.poll.2.1) := by
  cases h with
  | beyond hover => exact .beyond hover
  | ended recording length hbody hcommit hincoming hstored =>
    have hpoll : recording.poll .done = (recording, []) := by
      unfold Cache.Recording.poll
      simp [hcommit]
    refine .ended recording length ?_ hcommit ?_ fun hdeclares =>
      List.mem_append_left _ (hstored hdeclares)
    · simp [Source.poll, readsOn, hbody, hincoming, Source.pass, Cache.Body.poll, hpoll]
    · simp [Source.poll, readsOn, hbody, hincoming, Source.pass]
  | holding recording length hbody hcommit htotal hslot =>
    exact poll_holding hbody hcommit htotal hslot hgood

theorem Records.given (h : Records commit total source past) (outcome : Outcome) :
    Records commit total source (past ++ [.given outcome]) := by
  cases h with
  | beyond hover => exact .beyond hover
  | ended recording length hbody hcommit hincoming hstored =>
    exact .ended recording length hbody hcommit hincoming fun hdeclares =>
      List.mem_append_left _ (hstored hdeclares)
  | holding recording length hbody hcommit htotal hslot =>
    exact .holding recording length hbody hcommit htotal hslot

/-! ### What is drained -/

/-- The end of a `304` is still to be read, or has been; it puts the connection back unless it
fails. -/
inductive Drains (incoming : List Arrival) (stored : Bytes) (source : Source)
    (past : List Event) (asked : Nat) : Prop
  | reading (length : Option Nat) :
      source.body = .draining ⟨true, some stored⟩ length → source.slot = true →
      (.failure ∈ incoming ↔ .failure ∈ source.incoming) → .released ∉ past → asked = 0 →
      Drains incoming stored source past asked
  | read (length : Option Nat) :
      source.body = .draining ⟨false, none⟩ length →
      (.released ∈ past ↔ .failure ∉ incoming) → 0 < asked →
      Drains incoming stored source past asked

variable {incoming : List Arrival} {stored : Bytes}

theorem Drains.released_iff (h : Drains incoming stored source past asked) :
    .released ∈ past ↔ .failure ∉ incoming ∧ 0 < asked := by
  cases h with
  | reading _ _ _ _ hreleased hasked => exact iff_of_false hreleased (by omega)
  | read _ _ hreleased hasked => rw [hreleased, and_iff_left hasked]

theorem Drains.poll (h : Drains incoming stored source past asked) :
    Fed [stored] (Drains incoming stored) source past asked := by
  right
  obtain ⟨arrivals, slot, body⟩ := source
  cases h with
  | read length hbody hreleased hasked =>
    dsimp only at hbody
    subst hbody
    refine Or.inr ⟨?_, .read length rfl ?_ (Nat.succ_pos _)⟩
    · rw [List.getElem?_eq_none (Nat.succ_le_of_lt hasked)]
      rfl
    · rw [← hreleased]
      simp [Source.poll, readsOn, Source.pass, Cache.Body.poll]
  | reading length hbody hslot hfailure hreleased hasked =>
    dsimp only at hbody hslot hfailure
    subst hbody hslot hasked
    cases arrivals with
    | nil =>
      have hnone : Arrival.failure ∉ incoming := fun h => by cases hfailure.mp h
      refine Or.inr ⟨rfl, .read length rfl ?_ Nat.one_pos⟩
      simp [Source.poll, readsOn, Source.pass, hnone]
    | cons arrival rest =>
      -- all but a failure leaves the `304` to be read on
      have hrest : arrival ≠ .failure → (.failure ∈ incoming ↔ .failure ∈ rest) := by
        intro harrival
        simpa [harrival.symm] using hfailure
      have hquiet : .released ∉ past ++ ([] : List Event) := by simpa using hreleased
      cases arrival with
      | pending | trailers | data =>
        exact Or.inl ⟨rfl, .reading length rfl rfl (hrest (by simp)) hquiet rfl⟩
      | failure =>
        have hfails : Arrival.failure ∈ incoming := hfailure.mpr List.mem_cons_self
        refine Or.inr ⟨rfl, .read length rfl (iff_of_false hquiet ?_) Nat.one_pos⟩
        simpa using hfails

theorem Drains.given (h : Drains incoming stored source past asked) (outcome : Outcome) :
    Drains incoming stored source (past ++ [.given outcome]) asked := by
  cases h with
  | reading length hbody hslot hfailure hreleased hasked =>
    exact .reading length hbody hslot hfailure (by simpa using hreleased) hasked
  | read length hbody hreleased hasked =>
    exact .read length hbody (by simpa using hreleased) hasked

theorem feeds_flows (wire : List Bytes) : Feeds wire (Flows wire) :=
  ⟨Flows.poll, fun outcome h => h.given outcome⟩

theorem feeds_records (wire : List Bytes) (commit : Cache.Commit) (total : Bytes) :
    Feeds wire fun source past asked =>
      Flows wire source past asked ∧ Records commit total source past where
  poll := by
    rintro source past asked ⟨hflows, hrecords⟩
    by_cases hgood : ∀ error, source.poll.2.2 ≠ some (.error error)
    · have hrecorded := hrecords.poll hgood
      exact hflows.poll.imp_right (Or.imp (·.imp_right (⟨·, hrecorded⟩))
        (·.imp_right (⟨·, hrecorded⟩)))
    · exact Or.inl (by simpa using hgood)
  given outcome h := ⟨h.1.given outcome, h.2.given outcome⟩

theorem feeds_drains (incoming : List Arrival) (stored : Bytes) :
    Feeds [stored] (Drains incoming stored) :=
  ⟨Drains.poll, fun outcome h => h.given outcome⟩

end

namespace Reading

variable {D : Type*} {codec : Codec D} {guard : ExpansionGuard} {wire : List Bytes}
  {start : List (Option D)} {reading : Reading D} {past : List Event} {fired : Bool}
  {Inv : Source → List Event → Nat → Prop}

/-! ### One step -/

/-- An error is on its way up, or has been given. -/
def Erred (reading : Reading D) (past : List Event) : Prop :=
  (∃ error, reading.chain.control = .answered (.error error)) ∨
    ∃ error, .given (.error error) ∈ past

/-- What a reading keeps until its end: it has failed, or it follows the demands on its decoders. -/
inductive Sound (Inv : Source → List Event → Nat → Prop) (codec : Codec D) (wire : List Bytes)
    (start : List (Option D)) (reading : Reading D) (past : List Event) : Prop
  | erred : Erred reading past → Sound Inv codec wire start reading past
  | reads (asked : Nat) : reading.bounded ≠ some true → Inv reading.source past asked →
      Follows codec wire start reading.chain asked → Sound Inv codec wire start reading past

theorem step_idle (hcontrol : reading.chain.control = .idle) :
    reading.step codec guard fired = reading.begin fired := by
  simp [step, hcontrol]

theorem step_source (hcontrol : reading.chain.control = .polling)
    (hbelow : reading.chain.below = []) :
    reading.step codec guard fired = reading.pollSource := by
  simp [step, hcontrol, hbelow]

theorem step_poll (hcontrol : reading.chain.control = .polling) {stage : Stage D}
    {inner : List (Stage D)} (hbelow : reading.chain.below = stage :: inner) :
    reading.step codec guard fired =
      ({ reading with chain := (reading.chain.poll codec guard .pending).1 }, []) := by
  simp only [step, hcontrol, hbelow, Chain.step, Chain.poll]
  split <;> rfl

theorem step_tell {outcome : Outcome} (hcontrol : reading.chain.control = .answered outcome) :
    reading.step codec guard fired =
      ({ reading with chain := (reading.chain.tell codec outcome).1 },
        if reading.chain.waiting = [] then [.given outcome] else []) := by
  simp only [step, hcontrol, Chain.step, Chain.tell]
  split <;> rename_i hwaiting <;> simp [hwaiting, Event.ofChain]

theorem given_notMem_poll (source : Source) (outcome : Outcome) :
    .given outcome ∉ source.poll.2.1 := by
  unfold Source.poll
  split
  · split
    · simp
    · simp
    · simp [Source.pass]
    · simp [Source.pass]
    · simp [Source.pass]
  · simp [Source.pass]

theorem Erred.step (h : Erred reading past) :
    Erred (reading.step codec guard fired).1 (past ++ (reading.step codec guard fired).2) := by
  rcases h with ⟨error, hcontrol⟩ | ⟨error, hmem⟩
  · rw [step_tell hcontrol]
    cases hwaiting : reading.chain.waiting with
    | nil => exact Or.inr ⟨error, by simp⟩
    | cons stage outer => exact Or.inl ⟨error, by simp [Chain.tell, hwaiting, Layer.tell]⟩
  · exact Or.inr ⟨error, List.mem_append_left _ hmem⟩

/-- What a source answers is what the decoders above it are given. -/
theorem Sound.pollSource (hfeeds : Feeds wire Inv) (hcontrol : reading.chain.control = .polling)
    (hbelow : reading.chain.below = []) {asked : Nat} (hbounded : reading.bounded ≠ some true)
    (hinv : Inv reading.source past asked) (h : Follows codec wire start reading.chain asked) :
    Sound Inv codec wire start reading.pollSource.1 (past ++ reading.pollSource.2) := by
  rcases hfeeds.poll hinv with ⟨error, herror⟩ | ⟨hanswer, hafter⟩ | ⟨hanswer, hafter⟩
  · exact .erred (Or.inl ⟨error, by simp [Reading.pollSource, herror]⟩)
  · cases houtcome : reading.source.poll.2.2 with
    | none =>
      refine .reads asked hbounded hafter ?_
      simpa [Reading.pollSource, houtcome] using h.move (.inr hcontrol) (.inl rfl)
    | some outcome =>
      rw [houtcome] at hanswer
      cases outcome with
      | pending =>
        refine .reads asked hbounded hafter ?_
        simpa [Reading.pollSource, houtcome] using h.move (.inr hcontrol) (.inr rfl)
      | data chunk => cases hanswer
      | error error => exact .erred (Or.inl ⟨error, by simp [Reading.pollSource, houtcome]⟩)
      | done => cases hanswer
  · refine .reads (asked + 1) hbounded hafter ?_
    obtain ⟨outcome, houtcome, hnext⟩ := Option.bind_eq_some_iff.mp hanswer
    have hdemand : demand codec wire (decodersAt reading.chain.below) asked =
        (Outcome.answer outcome, decodersAt [], asked + 1) := by
      rw [hbelow, hnext]
      rfl
    have hfollows := h.answered hcontrol hdemand (by simp [hnext])
    simpa [Reading.pollSource, houtcome, ← hbelow] using hfollows

theorem Sound.step (hfeeds : Feeds wire Inv) (h : Sound Inv codec wire start reading past)
    (hmore : .given .done ∉ (reading.step codec guard fired).2) :
    Sound Inv codec wire start (reading.step codec guard fired).1
      (past ++ (reading.step codec guard fired).2) := by
  cases h with
  | erred herred => exact .erred herred.step
  | reads asked hbounded hinv hfollows =>
    cases hcontrol : reading.chain.control with
    | idle =>
      have hpolling := hfollows.move (.inl hcontrol) (.inl rfl)
      rw [step_idle hcontrol, begin]
      split
      · exact absurd (by assumption) hbounded
      · split_ifs
        · exact .erred (Or.inr ⟨.timeout, by simp⟩)
        · exact .reads asked hbounded (by rwa [List.append_nil]) hpolling
      · exact .reads asked hbounded (by rwa [List.append_nil]) hpolling
    | polling =>
      cases hbelow : reading.chain.below with
      | nil =>
        rw [step_source hcontrol hbelow]
        exact Sound.pollSource hfeeds hcontrol hbelow hbounded hinv hfollows
      | cons stage inner =>
        rw [step_poll hcontrol hbelow, List.append_nil]
        rcases hfollows.poll hcontrol hbelow .pending with ⟨error, herror⟩ | hnext
        · exact .erred (Or.inl ⟨error, herror⟩)
        · exact .reads asked hbounded hinv hnext
    | answered outcome =>
      by_cases hgood : ∀ error, outcome ≠ .error error
      · rw [step_tell hcontrol] at hmore ⊢
        have hnext := hfollows.tell hcontrol hgood (by
          rintro rfl hnone
          simp [hnone] at hmore)
        refine .reads asked hbounded ?_ hnext
        dsimp only
        split_ifs
        · exact hfeeds.given outcome hinv
        · rwa [List.append_nil]
      · obtain ⟨error, rfl⟩ : ∃ error, outcome = .error error := by simpa using hgood
        exact .erred (Erred.step (Or.inl ⟨error, hcontrol⟩))

/-! ### Whole readings -/

/-- The end is given after the deadline, or when the outermost layer has answered so. -/
theorem done_of_step (h : .given .done ∈ (reading.step codec guard fired).2) :
    (reading.step codec guard fired).2 = [.given .done] ∧
      (reading.chain.control = .idle ∧ reading.bounded = some true ∨
        reading.chain.control = .answered .done ∧ reading.chain.waiting = []) := by
  cases hcontrol : reading.chain.control with
  | idle =>
    rw [step_idle hcontrol, begin] at h ⊢
    split at h
    · rename_i hexpired
      exact ⟨by simp, Or.inl ⟨rfl, hexpired⟩⟩
    · split_ifs at h <;> simp at h
    · simp at h
  | polling =>
    cases hbelow : reading.chain.below with
    | nil =>
      rw [step_source hcontrol hbelow] at h
      exact absurd h (given_notMem_poll reading.source .done)
    | cons stage inner =>
      rw [step_poll hcontrol hbelow] at h
      cases h
  | answered outcome =>
    rw [step_tell hcontrol] at h ⊢
    dsimp only at h ⊢
    split_ifs at h ⊢ with hwaiting
    · cases List.mem_singleton.mp h
      exact ⟨rfl, Or.inr ⟨rfl, hwaiting⟩⟩
    · cases h

theorem turn_eq_inl {after : Reading D} (h : (reading.turn codec guard fired).2 = .inl after) :
    after = (reading.step codec guard fired).1 ∧
      .given .done ∉ (reading.step codec guard fired).2 := by
  unfold turn at h
  dsimp only at h
  split_ifs at h with hany
  cases h
  exact ⟨rfl, fun hmem => hany (List.any_eq_true.mpr ⟨_, hmem, rfl⟩)⟩

theorem turn_eq_inr (h : (reading.turn codec guard fired).2 = .inr ()) :
    .given .done ∈ (reading.step codec guard fired).2 := by
  unfold turn at h
  dsimp only at h
  split_ifs at h with hany
  obtain ⟨event, hmem, hevent⟩ := List.any_eq_true.mp hany
  split at hevent
  · exact hmem
  · cases hevent

/-- How a reading ends without an error: its decoders have ended, and what the source keeps holds
for as often as they have asked. -/
theorem ends_of_read (hfeeds : Feeds wire Inv) (hsound : Sound Inv codec wire start reading [])
    {timer : List Bool} (hends : (reading.read codec guard timer).2 = some ())
    (hgood : ∀ error, .given (.error error) ∉ (reading.read codec guard timer).1) :
    ∃ source past asked, (reading.read codec guard timer).1 = past ++ [.given .done] ∧
      Inv source past asked ∧ Ends codec wire start 0 asked := by
  have hrun := Loop.run_ends
    (fun records reading => Sound Inv codec wire start reading records.flatten) ?step hends []
    hsound
  case step =>
    intro before reading fired hsound after hafter
    obtain ⟨rfl, hmore⟩ := turn_eq_inl hafter
    rw [List.flatten_append, List.flatten_singleton]
    exact hsound.step hfeeds hmore
  obtain ⟨records, last, fired, hsound, hlast, hrecord⟩ := hrun
  obtain ⟨hevents, hdone⟩ := done_of_step (turn_eq_inr hlast)
  have hread : (reading.read codec guard timer).1 = records.flatten ++ [.given .done] := by
    have hflat := congrArg List.flatten hrecord
    rw [List.nil_append, List.flatten_append, List.flatten_singleton] at hflat
    rw [← hevents]
    exact hflat
  cases hsound with
  | erred herred =>
    rcases herred with ⟨error, herror⟩ | ⟨error, hmem⟩
    · simp [herror] at hdone
    · exact absurd (hread ▸ List.mem_append_left _ hmem) (hgood error)
  | reads asked hbounded hinv hfollows =>
    obtain ⟨hcontrol, hwaiting⟩ := hdone.resolve_left fun hexpired => hbounded hexpired.2
    cases hfollows with
    | ended _ _ hended => exact ⟨last.source, records.flatten, asked, hread, hinv, hended⟩
    | underWay _ hopen _ => exact absurd hwaiting (hopen hcontrol)

theorem decodersAt_new {headers stripped : HeaderMap} {decoders : List (ContentCoding × Bool)}
    (h : decodeChain headers = .ok (stripped, decoders)) :
    decodersAt (Chain.new codec decoders).below =
      (codingsOf headers).map fun coding => some (codec.start coding) := by
  have hcodings : (decoders.map Prod.fst).reverse = codingsOf headers := by
    unfold decodeChain at h
    split_ifs at h with hcontains
    · split at h
      · cases h
      · rename_i codings hparse
        cases h
        obtain ⟨more, rfl, hmore⟩ := (parses_of_parseContentEncoding hparse).parsed
        have htokens := congrArg (List.filterMap id) hmore
        rw [(decodersOf_eq _).1, List.reverse_reverse, codingsOf]
        simp only [List.filterMap_map, Function.id_comp] at htokens
        rw [htokens]
        simp
    · cases h
      have hnone : headers.getAll .contentEncoding = [] := by
        simpa [HeaderMap.containsKey] using hcontains
      simp [codingsOf, hnone, tokens]
  rw [← hcodings]
  simp [decodersAt, Chain.new, Layer.new, Function.comp_def]

theorem sound_of_finish {headers stripped : HeaderMap} {source : Source} {bounded : Bool}
    (h : finish codec headers source bounded = .ok (stripped, reading))
    (hinv : Inv source [] 0) :
    Sound Inv codec wire ((codingsOf headers).map fun coding => some (codec.start coding)) reading
      [] := by
  unfold finish at h
  split at h
  · cases h
  · rename_i decoders hdecode
    cases h
    refine .reads 0 (by dsimp only; split_ifs <;> simp) hinv (.underWay (by simp [Chain.new])
      (fun h => by cases h) fun n hn => ?_)
    rw [← decodersAt_new hdecode]
    exact hn

theorem mem_ended {event : Event} (hevent : event ≠ .given .done) :
    event ∈ past ++ [.given .done] ↔ event ∈ past := by
  simp [hevent]

theorem exists_ends_iff {n : Nat} (h : Ends codec wire start 0 n) (P : Nat → Prop) :
    (∃ m, Ends codec wire start 0 m ∧ P m) ↔ P n := by
  constructor
  · rintro ⟨m, hm, hP⟩
    rwa [h.unique hm]
  · intro hP
    exact ⟨n, h, hP⟩

/-- **Finishing a body finishes its bookkeeping if it is read out**, and only then. -/
theorem finished_iff (codec : Codec D) (guard : ExpansionGuard) (wrapper : Wrapper)
    (incoming : List Arrival) (length : Option Nat) (headers stripped : HeaderMap)
    (bounded : Bool) (reading : Reading D)
    (hfinish : finish codec headers (wrapper.source incoming length) bounded =
      .ok (stripped, reading))
    (timer : List Bool) (hends : (reading.read codec guard timer).2 = some ())
    (hgood : ∀ error, .given (.error error) ∉ (reading.read codec guard timer).1) :
    Bookkept wrapper incoming (reading.read codec guard timer).1 ↔
      ReadOut codec headers wrapper incoming := by
  have hflows : Transparent (wrapper.body length) →
      Flows (chunksOf incoming) (wrapper.source incoming length) [] 0 := fun htransparent =>
    ⟨htransparent, rfl, fun _ => ⟨Nat.zero_le _, by simp⟩, fun h => by (cases h)⟩
  -- without a recording, the connection is all there is to it
  have hbookkept : ∀ past, (∀ commit, wrapper ≠ .recording commit) →
      (Bookkept wrapper incoming (past ++ [.given .done]) ↔ .released ∈ past) := fun past hplain =>
    ⟨fun h => (mem_ended (by simp)).mp h.released, fun h =>
      ⟨List.mem_append_left _ h, fun commit hcommit => absurd hcommit (hplain commit)⟩⟩
  cases wrapper with
  | plain =>
    obtain ⟨source, past, asked, hread, hinv, hasked⟩ := ends_of_read (feeds_flows _)
      (sound_of_finish hfinish (hflows (.incoming length))) hends hgood
    rw [hread, hbookkept past (by simp), hinv.released_iff]
    exact (exists_ends_iff hasked _).symm
  | recording commit =>
    have hrecords : Records commit (chunksOf incoming).flatten
        ((Wrapper.recording commit).source incoming length) [] :=
      .holding ⟨[], some commit⟩ length rfl rfl rfl rfl
    obtain ⟨source, past, asked, hread, ⟨hinv, hrecorded⟩, hasked⟩ := ends_of_read
      (feeds_records _ _ _) (sound_of_finish hfinish ⟨hflows (.recording _ length), hrecords⟩)
      hends hgood
    rw [hread]
    refine Iff.trans ⟨fun h => (mem_ended (by simp)).mp h.released, fun hreleased => ?_⟩
      (hinv.released_iff.trans (exists_ends_iff hasked _).symm)
    refine ⟨List.mem_append_left _ hreleased, fun _ hcommit hlimit hdeclares => ?_⟩
    cases hcommit
    cases hrecorded with
    | beyond hover => exact absurd hlimit (Nat.not_le_of_lt hover)
    | holding _ _ _ _ _ hslot => exact absurd hreleased (hinv.held hslot).2
    | ended _ _ _ _ _ hstored => exact List.mem_append_left _ (hstored hdeclares)
  | draining stored =>
    have hdrains : Drains incoming stored ((Wrapper.draining stored).source incoming length) [] 0 :=
      .reading _ rfl rfl Iff.rfl (by simp) rfl
    obtain ⟨source, past, asked, hread, hinv, hasked⟩ :=
      ends_of_read (feeds_drains _ _) (sound_of_finish hfinish hdrains) hends hgood
    rw [hread, hbookkept past (by simp), hinv.released_iff]
    exact and_congr_right fun _ => (exists_ends_iff hasked _).symm

end Reading

/-! ## A coding with an end mark -/

/-- A decoder that is waiting for more, or has something to give. -/
inductive Marked where
  | waiting
  | holding (chunk : Bytes) (ended : Bool)

/-- A coding that changes nothing and ends with a zero byte, or with its source. -/
def Codec.marked : Codec Marked where
  start _ := .waiting
  read
    | .waiting => .asks fun
        | none => .holding [] true
        | some chunk => .holding (chunk.takeWhile (· ≠ 0)) (chunk.contains 0)
    | .holding [] false => .asks fun
        | none => .holding [] true
        | some chunk => .holding (chunk.takeWhile (· ≠ 0)) (chunk.contains 0)
    | .holding [] true => .gives [] .waiting
    | .holding chunk ended => .gives chunk (.holding [] ended)

/-- Limits no body comes near. -/
def wide : ExpansionGuard := ⟨100, 100⟩

/-- A response to be recorded. -/
def recorded : Cache.Commit :=
  ⟨.new .get (.plain "https" "example.com" "/"), 200, .http11, [], .of [] [], 0, 0, 100⟩

/-- A response whose body is one chunk in that coding, to be recorded, with a deadline. -/
def oneChunk (chunk : Bytes) : Reading Marked where
  source := (Wrapper.recording recorded).source [.data chunk] none
  chain := Chain.new Codec.marked [(.gzip, true)]
  bounded := some false

theorem finish_oneChunk (chunk : Bytes) :
    Reading.finish Codec.marked [(.contentEncoding, .fromStatic "gzip")]
      ((Wrapper.recording recorded).source [.data chunk] none) true = .ok ([], oneChunk chunk) := by
  have hdecode : decodeChain [(.contentEncoding, .fromStatic "gzip")] =
      .ok ([], [(.gzip, true)]) := by
    rfl
  rw [Reading.finish, hdecode]
  rfl

/-- Without the mark the decoder asks for more than the one chunk, and everything is done. -/
theorem finished_without_mark :
    ReadOut Codec.marked [(.contentEncoding, .fromStatic "gzip")] (.recording recorded)
        [.data [1]] ∧
      Bookkept (.recording recorded) [.data [1]]
        ((oneChunk [1]).read Codec.marked wide (List.replicate 13 false)).1 := by
  have hcodings : codingsOf [(.contentEncoding, .fromStatic "gzip")] = [.gzip] := by
    decide +kernel
  have hout : ReadOut Codec.marked [(.contentEncoding, .fromStatic "gzip")] (.recording recorded)
      [.data [1]] := by
    refine ⟨2, ?_, by decide⟩
    rw [Asks, hcodings]
    exact .more rfl (by simp) (.more rfl (by simp) (.more rfl (by simp) (.last rfl)))
  have hevents : ((oneChunk [1]).read Codec.marked wide (List.replicate 13 false)).1 =
      [.given (.data [1]), .released, .stored (.put recorded.key (recorded.entry [1])),
        .given .done] := by
    decide +kernel
  refine ⟨hout, (Reading.finished_iff Codec.marked wide (.recording recorded) [.data [1]] none
    [(.contentEncoding, .fromStatic "gzip")] [] true (oneChunk [1]) (finish_oneChunk [1])
    (List.replicate 13 false) (by decide +kernel) ?_).mpr hout⟩
  rw [hevents]
  simp

/-- With it, the caller has the whole body without an error, and the connection is not put back and
nothing is stored: the decoder has not read its source to the end. -/
theorem end_mark_ends_reading :
    (oneChunk [1, 0]).read Codec.marked wide (List.replicate 11 false) =
        ([.given (.data [1]), .given .done], some ()) ∧
      (chunksOf [.data [1, 0]]).flatten.length ≤ recorded.limit ∧
      Cache.declaresItsLength recorded.headers (chunksOf [.data [1, 0]]).flatten.length ∧
      ¬ Bookkept (.recording recorded) [.data [1, 0]]
        ((oneChunk [1, 0]).read Codec.marked wide (List.replicate 11 false)).1 := by
  have hread : (oneChunk [1, 0]).read Codec.marked wide (List.replicate 11 false) =
      ([.given (.data [1]), .given .done], some ()) := by
    decide +kernel
  refine ⟨hread, by decide, by decide, fun h => ?_⟩
  have hreleased := h.released
  rw [hread] at hreleased
  simp at hreleased

end Chromulate.Http
