import Chromulate.Compression.Stream

/-!
# A chain of decoders

`ExpansionGuard::decode_response` and the streams it stacks: one decoder for each coding but
`identity`, the last coding's nearest the wire, each in a guard of its own.

**The state** (`Chain`). A poll is a call stack: the stages that wait for what is below them, and
below these the ones that have not been polled. A step is one call or one return, so the source may
answer with anything at any time, and a consumer may stop or go on after any answer.

**The bound.** All guards hold what their decoder has given against one total, and only the stage
that reads the wire adds to it. So what the outermost stage passes on is within both limits of what
the wire has brought (`Bounded`), as long as no decoder gives bytes out of nothing (`Silent`).
-/

namespace Chromulate.Compression

/-! ## Building it -/

/-- A turn of the loop of `decode_response`, which goes through the codings from the last to the
first: whether the next decoder reads the wire, and the decoders so far, each with whether it counts
its input. -/
def addCoding (state : Bool × List (ContentCoding × Bool)) (coding : ContentCoding) :
    Bool × List (ContentCoding × Bool) :=
  let stage := state.1
  let readsTheWire := if coding ≠ .identity then false else state.1
  -- `decode_layer` leaves the body as it is for `identity`
  (readsTheWire, if coding = .identity then state.2 else state.2 ++ [(coding, stage)])

/-- The decoders for a list of codings, the one nearest the wire first. -/
def decodersOf (codings : List ContentCoding) : List (ContentCoding × Bool) :=
  (codings.reverse.foldl addCoding (true, [])).2

/-- `ExpansionGuard::decode_response`, up to the polling: the headers and the decoders. -/
def decodeChain (headers : HeaderMap) :
    Except BodyError (HeaderMap × List (ContentCoding × Bool)) :=
  if headers.containsKey .contentEncoding then
    match parseContentEncoding (headers.getAll .contentEncoding) with
    | .error error => .error error
    | .ok codings =>
      .ok ((headers.remove .contentEncoding).remove .contentLength, decodersOf codings)
  else .ok (headers, [])

/-! ## Polling it -/

/-- A decoder in its guard, and `WireBytes::counts_input`. -/
structure Stage (D : Type*) where
  layer : Layer D
  countsInput : Bool

/-- Where a poll is. -/
inductive Control where
  /-- The consumer has not polled, or has its answer. -/
  | idle
  | polling
  | answered (outcome : Outcome)
  deriving DecidableEq

/-- A chain of decoders that is being polled. -/
structure Chain (D : Type*) where
  /-- `WireBytes::total`, a `u64` that fewer than `2 ^ 64` bytes do not make wrap. -/
  encodedSoFar : Nat
  /-- The stages that have polled what is below them, the last one first. -/
  waiting : List (Stage D)
  /-- The others, from the outermost to the one that reads the wire. -/
  below : List (Stage D)
  control : Control

/-- What polling a chain has brought about. -/
inductive Event where
  /-- The body the chain was built around has answered. -/
  | wire (outcome : Outcome)
  /-- The consumer has been answered. -/
  | given (outcome : Outcome)
  deriving DecidableEq

namespace Chain

variable {D : Type*} (codec : Codec D) (guard : ExpansionGuard)

def new (decoders : List (ContentCoding × Bool)) : Chain D where
  encodedSoFar := 0
  waiting := []
  below := (decoders.map fun decoder => ⟨Layer.new codec decoder.1, decoder.2⟩).reverse
  control := .idle

/-- Polling what is below the stages that wait; `answer` is what the wire has, if it comes to that.
-/
def poll (chain : Chain D) (answer : Outcome) : Chain D × List Event :=
  match chain.below with
  | [] => ({ chain with control := .answered answer }, [.wire answer])
  | stage :: inner =>
    match stage.layer.poll codec guard chain.encodedSoFar with
    | (layer, none) =>
      ({ chain with waiting := { stage with layer := layer } :: chain.waiting, below := inner },
        [])
    | (layer, some outcome) =>
      ({ chain with
          below := { stage with layer := layer } :: inner, control := .answered outcome }, [])

/-- `CountingStream::poll_next` on an answer: what a stage adds to the total. -/
def counted (stage : Stage D) (outcome : Outcome) : Nat :=
  if stage.countsInput then outcome.bytes.length else 0

/-- An answer goes to the stage that waits for it, or to the consumer. -/
def tell (chain : Chain D) (outcome : Outcome) : Chain D × List Event :=
  match chain.waiting with
  | [] => ({ chain with control := .idle }, [.given outcome])
  | stage :: outer =>
    let (layer, answer) := stage.layer.tell codec outcome
    ({ encodedSoFar := chain.encodedSoFar + counted stage outcome
       waiting := outer
       below := { stage with layer := layer } :: chain.below
       control := answer.elim .polling .answered }, [])

def step (chain : Chain D) (answer : Outcome) : Chain D × List Event :=
  match chain.control with
  | .idle => ({ chain with control := .polling }, [])
  | .polling => chain.poll codec guard answer
  | .answered outcome => chain.tell codec outcome

/-- The chain after some steps, and what they have brought about. -/
def run (chain : Chain D) : List Outcome → Chain D × List Event
  | [] => (chain, [])
  | answer :: answers =>
    let (after, events) := chain.step codec guard answer
    let (last, later) := run after answers
    (last, events ++ later)

end Chain

/-- How many bytes the wire has brought. -/
def wireBytes (events : List Event) : Nat :=
  (events.map fun
    | .wire outcome => outcome.bytes.length
    | .given _ => 0).sum

/-- How many bytes the consumer has been given. -/
def givenBytes (events : List Event) : Nat :=
  (events.map fun
    | .wire _ => 0
    | .given outcome => outcome.bytes.length).sum

/-! ## What a field asks for -/

/-- The tokens of a `Content-Encoding` field that are not empty, over all its lines. -/
def tokens (values : List HeaderValue) : List Str :=
  values.flatMap fun value =>
    (((value.toStr.getD []).splitOn ',').map Text.trim).filter fun token => !token.isEmpty

/-- What a loop over tokens has made of them. -/
structure Parses (before : List ContentCoding) (listed : List Str) (after : List ContentCoding) :
    Prop where
  parsed : ∃ more, after = before ++ more ∧ listed.map ContentCoding.parse = more.map some
  few : before.length ≤ maxContentCodings → after.length ≤ maxContentCodings

theorem Parses.nil (codings : List ContentCoding) : Parses codings [] codings :=
  ⟨⟨[], (List.append_nil codings).symm, rfl⟩, id⟩

theorem Parses.append {a b c : List ContentCoding} {first second : List Str}
    (h : Parses a first b) (h' : Parses b second c) : Parses a (first ++ second) c := by
  obtain ⟨more, rfl, hmore⟩ := h.parsed
  obtain ⟨more', rfl, hmore'⟩ := h'.parsed
  refine ⟨⟨more ++ more', List.append_assoc a more more', ?_⟩, fun hfew => h'.few (h.few hfew)⟩
  rw [List.map_append, hmore, hmore', List.map_append]

variable {codings after : List ContentCoding}

theorem parses_of_parseToken {token : Str} (h : parseToken codings token = .ok after) :
    Parses codings ([Text.trim token].filter fun token => !token.isEmpty) after := by
  unfold parseToken at h
  dsimp only at h
  split_ifs at h with hempty hfull
  · cases h
    simpa [hempty] using Parses.nil codings
  · cases hparse : ContentCoding.parse (Text.trim token) with
    | none =>
      rw [hparse] at h
      cases h
    | some coding =>
      rw [hparse] at h
      cases h
      refine ⟨⟨[coding], rfl, by simp [hempty, hparse]⟩, fun hfew => ?_⟩
      rw [List.length_append, List.length_singleton]
      omega

theorem parses_of_foldlM {α : Type*}
    (f : List ContentCoding → α → Except BodyError (List ContentCoding)) (listed : α → List Str)
    (hstep : ∀ codings item after, f codings item = .ok after →
      Parses codings (listed item) after) {items : List α}
    (h : items.foldlM f codings = .ok after) :
    Parses codings (items.flatMap listed) after := by
  induction items generalizing codings with
  | nil =>
    cases h
    exact Parses.nil _
  | cons item items ih =>
    rw [List.foldlM_cons] at h
    cases hitem : f codings item with
    | error error =>
      rw [hitem] at h
      cases h
    | ok next =>
      rw [hitem] at h
      exact (hstep codings item next hitem).append (ih h)

theorem parses_of_parseLine {value : HeaderValue} (h : parseLine codings value = .ok after) :
    Parses codings (tokens [value]) after := by
  unfold parseLine at h
  cases htext : value.toStr with
  | none =>
    rw [htext] at h
    cases h
  | some text =>
    rw [htext] at h
    have hparses := parses_of_foldlM parseToken _ (fun _ _ _ => parses_of_parseToken) h
    have hlisted : ((text.splitOn ',').flatMap fun token =>
        [Text.trim token].filter fun token => !token.isEmpty) = tokens [value] := by
      simp only [tokens, htext, Option.getD_some, List.flatMap_cons, List.flatMap_nil,
        List.append_nil]
      induction text.splitOn ',' with
      | nil => rfl
      | cons token rest ih => rw [List.flatMap_cons, ih, List.map_cons, ← List.filter_append]; rfl
    rw [← hlisted]
    exact hparses

/-- **What an accepted field lists**: codings, and not more than there may be. -/
theorem parses_of_parseContentEncoding {values : List HeaderValue}
    (h : parseContentEncoding values = .ok codings) : Parses [] (tokens values) codings := by
  have hparses := parses_of_foldlM parseLine (fun value => tokens [value])
    (fun _ _ _ => parses_of_parseLine) h
  have hlisted : (values.flatMap fun value => tokens [value]) = tokens values := by
    simp [tokens]
  rw [← hlisted]
  exact hparses

/-- Once a decoder reads the wire the others do not. -/
theorem foldl_addCoding_false (codings : List ContentCoding)
    (decoders : List (ContentCoding × Bool)) :
    codings.foldl addCoding (false, decoders) =
      (false, decoders ++ (codings.filter fun coding => coding ≠ .identity).map
        fun coding => (coding, false)) := by
  induction codings generalizing decoders with
  | nil => simp
  | cons coding codings ih =>
    rw [List.foldl_cons, addCoding]
    by_cases hidentity : coding = .identity
    · simp [hidentity, ih]
    · simp [hidentity, ih]

theorem foldl_addCoding_true (codings : List ContentCoding) :
    (codings.foldl addCoding (true, [])).2 =
      match codings.filter fun coding => coding ≠ .identity with
      | [] => []
      | first :: rest => (first, true) :: rest.map fun coding => (coding, false) := by
  induction codings with
  | nil => rfl
  | cons coding codings ih =>
    rw [List.foldl_cons, addCoding]
    by_cases hidentity : coding = .identity
    · simpa [hidentity] using ih
    · simp [hidentity, foldl_addCoding_false]

/-- **The codings are undone from the last to the first**, and the first decoder alone counts. -/
theorem decodersOf_eq (codings : List ContentCoding) :
    (decodersOf codings).map Prod.fst =
        (codings.filter fun coding => coding ≠ .identity).reverse ∧
      (decodersOf codings).map Prod.snd =
        (List.replicate (decodersOf codings).length false).set 0 true := by
  rw [decodersOf, foldl_addCoding_true, ← List.filter_reverse]
  cases codings.reverse.filter fun coding => coding ≠ .identity with
  | nil => exact ⟨rfl, rfl⟩
  | cons first rest =>
    constructor
    · simp [Function.comp_def]
    · simp [Function.comp_def, List.replicate_succ]

/-! ## What one stage does -/

variable {D : Type*} {codec : Codec D} {guard : ExpansionGuard}

/-- What a decoder can be before it has been told any bytes. -/
inductive Unread (codec : Codec D) : D → Prop
  | start (coding : ContentCoding) : Unread codec (codec.start coding)
  | ended {decoder : D} {told : Option Bytes → D} :
      Unread codec decoder → codec.read decoder = .asks told → Unread codec (told none)

/-- No decoder gives bytes before it has read one. -/
def Codec.Silent (codec : Codec D) : Prop :=
  ∀ decoder, Unread codec decoder → ∀ chunk next, codec.read decoder = .gives chunk next →
    chunk = []

theorem Unread.resume {decoder : D} (h : Unread codec decoder) :
    Unread codec (codec.resume decoder none) := by
  unfold Codec.resume
  split
  · rename_i told hread
    exact .ended h hread
  · exact h

/-- What polling a stage comes to. -/
inductive Layer.Polls (codec : Codec D) (guard : ExpansionGuard) (encoded : Nat) (layer : Layer D) :
    Layer D × Option Outcome → Prop
  | asks : Layer.Polls codec guard encoded layer (layer, none)
  | stops (reader : Option D) (outcome : Outcome) :
      reader = layer.reader ∨ reader = none → outcome.bytes = [] →
      Layer.Polls codec guard encoded layer ({ layer with reader := reader }, some outcome)
  | gives (decoder : D) (chunk : Bytes) (next : D) (outcome : Outcome) :
      layer.reader = some decoder → codec.read decoder = .gives chunk next → chunk ≠ [] →
      (outcome.bytes ≠ [] → outcome.bytes = chunk ∧
        guard.checkLimits (layer.decodedSoFar + chunk.length) encoded = none) →
      Layer.Polls codec guard encoded layer
        ({ layer with reader := some next, decodedSoFar := layer.decodedSoFar + chunk.length },
          some outcome)

theorem Layer.polls (codec : Codec D) (guard : ExpansionGuard) (encoded : Nat) (layer : Layer D) :
    layer.Polls codec guard encoded (layer.poll codec guard encoded) := by
  unfold Layer.poll
  cases hreader : layer.reader with
  | none => exact .stops layer.reader .done (Or.inl rfl) rfl
  | some decoder =>
    dsimp only
    cases hread : codec.read decoder with
    | asks told => exact .asks
    | fails => exact .stops none _ (Or.inr rfl) rfl
    | gives chunk next =>
      cases chunk with
      | nil => exact .stops none _ (Or.inr rfl) rfl
      | cons first rest =>
        refine .gives decoder (first :: rest) next _ hreader hread (List.cons_ne_nil _ _) ?_
        intro hbytes
        cases hlimits : guard.checkLimits (layer.decodedSoFar + (first :: rest).length)
          encoded with
        | none => simp [Outcome.bytes]
        | some error =>
          rw [hlimits] at hbytes
          exact absurd rfl hbytes

/-- What telling a stage comes to: it has read nothing, or it has read the answer. -/
theorem Layer.tell_spec (codec : Codec D) (layer : Layer D) (outcome : Outcome) :
    (layer.tell codec outcome).1.decodedSoFar = layer.decodedSoFar ∧
      (∀ answer, (layer.tell codec outcome).2 = some answer → answer.bytes = []) ∧
      (outcome.bytes = [] → ∀ decoder, (layer.tell codec outcome).1.reader = some decoder →
        layer.reader = some decoder ∨
          ∃ before, layer.reader = some before ∧ decoder = codec.resume before none) := by
  cases outcome with
  | pending =>
    refine ⟨rfl, ?_, fun _ _ h => Or.inl h⟩
    rintro _ ⟨⟩
    rfl
  | error error =>
    refine ⟨rfl, ?_, fun _ _ h => nomatch h⟩
    rintro _ ⟨⟩
    rfl
  | done =>
    refine ⟨rfl, (fun _ h => nomatch h), fun _ decoder h => Or.inr ?_⟩
    obtain ⟨before, hbefore, heq⟩ := Option.map_eq_some_iff.mp h
    exact ⟨before, hbefore, heq.symm⟩
  | data chunk =>
    cases chunk with
    | nil => exact ⟨rfl, (fun _ h => nomatch h), fun _ _ h => Or.inl h⟩
    | cons first rest => exact ⟨rfl, (fun _ h => nomatch h), fun h => nomatch h⟩

/-! ## The bound over a run -/

namespace Chain

/-- All stages, from the outermost to the one that reads the wire. -/
def stages (chain : Chain D) : List (Stage D) := chain.waiting.reverse ++ chain.below

/-- The bytes of the answer that is on its way. -/
def underway (chain : Chain D) : Bytes :=
  match chain.control with
  | .answered outcome => outcome.bytes
  | _ => []

/-- What has come from the wire and has not been counted. -/
def arriving (chain : Chain D) : Nat := if chain.below = [] then chain.underway.length else 0

/-- What has passed all guards and has not been given to the consumer. -/
def leaving (chain : Chain D) : Nat := if chain.waiting = [] then chain.underway.length else 0

end Chain

/-- The stage that reads the wire counts, and no other. -/
def Flagged : List (Stage D) → Prop
  | [] => True
  | stage :: inner => stage.countsInput = inner.isEmpty ∧ Flagged inner

theorem Flagged.countsInput {outer inner : List (Stage D)} {stage : Stage D}
    (h : Flagged (outer ++ stage :: inner)) : stage.countsInput = inner.isEmpty := by
  induction outer with
  | nil => exact h.1
  | cons other outer ih => exact ih h.2

theorem Flagged.congr {a b : List (Stage D)}
    (hab : a.map Stage.countsInput = b.map Stage.countsInput) (h : Flagged a) : Flagged b := by
  induction a generalizing b with
  | nil =>
    cases b with
    | nil => trivial
    | cons other rest => cases hab
  | cons stage inner ih =>
    cases b with
    | nil => cases hab
    | cons other rest =>
      obtain ⟨hhead, hrest⟩ := List.cons.inj hab
      refine ⟨?_, ih hrest h.2⟩
      have hlength := congrArg List.length hrest
      rw [← hhead, h.1]
      cases inner <;> cases rest <;> simp_all

/-- What is true between two steps. -/
structure Bounded (codec : Codec D) (guard : ExpansionGuard) (chain : Chain D)
    (past : List Event) : Prop where
  flagged : Flagged chain.stages
  nonempty : chain.stages ≠ []
  counted : chain.encodedSoFar + chain.arriving ≤ wireBytes past
  /-- Before the wire has brought a byte no decoder has read one. -/
  unread : chain.encodedSoFar = 0 → ∀ stage ∈ chain.stages, ∀ decoder,
    stage.layer.reader = some decoder → Unread codec decoder
  dry : chain.encodedSoFar = 0 → chain.below ≠ [] → chain.underway = []
  decoded : ∀ stage, chain.stages.head? = some stage →
    givenBytes past + chain.leaving ≤ stage.layer.decodedSoFar
  size : givenBytes past + chain.leaving ≤ guard.maxDecompressedSize
  ratio : givenBytes past + chain.leaving ≤ guard.maxRatio * chain.encodedSoFar

namespace Bounded

variable {chain : Chain D} {past : List Event}

/-- A step that leaves the stages as they are. -/
theorem keep (h : Bounded codec guard chain past) {after : Chain D} {events : List Event}
    (hencoded : after.encodedSoFar = chain.encodedSoFar) (hstages : after.stages = chain.stages)
    (hcounted : after.encodedSoFar + after.arriving ≤ wireBytes (past ++ events))
    (hdry : after.below ≠ [] → after.underway = [] ∨ chain.below ≠ [] ∧
      after.underway = chain.underway)
    (hgiven : givenBytes (past ++ events) + after.leaving ≤ givenBytes past + chain.leaving) :
    Bounded codec guard after (past ++ events) := by
  refine ⟨?_, ?_, hcounted, ?_, ?_, ?_, Nat.le_trans hgiven h.size, ?_⟩
  · rw [hstages]
    exact h.flagged
  · rw [hstages]
    exact h.nonempty
  · rw [hencoded, hstages]
    exact h.unread
  · intro hzero hbelow
    rcases hdry hbelow with hnil | ⟨hne, heq⟩
    · exact hnil
    · rw [heq]
      exact h.dry (hencoded ▸ hzero) hne
  · rw [hstages]
    exact fun stage hstage => Nat.le_trans hgiven (h.decoded stage hstage)
  · rw [hencoded]
    exact Nat.le_trans hgiven h.ratio

variable {stage : Stage D}

/-- A step that changes one stage. What it delivers has been delivered before, or it is the
outermost stage that has counted it and found it within the limits. -/
theorem change (h : Bounded codec guard chain past) {after : Chain D} {front back : List (Stage D)}
    {stage' : Stage D} (hbefore : chain.stages = front ++ stage :: back)
    (hafter : after.stages = front ++ stage' :: back)
    (hcounts : stage'.countsInput = stage.countsInput)
    (hdecoded : stage.layer.decodedSoFar ≤ stage'.layer.decodedSoFar)
    (hencoded : chain.encodedSoFar ≤ after.encodedSoFar)
    (hcounted : after.encodedSoFar + after.arriving ≤ wireBytes past)
    (hunread : after.encodedSoFar = 0 → ∀ decoder, stage'.layer.reader = some decoder →
      Unread codec decoder) (hdry : after.encodedSoFar = 0 → after.below ≠ [] → after.underway = [])
    (hgiven : after.leaving = 0 ∨ front = [] ∧
      givenBytes past + after.leaving ≤ stage'.layer.decodedSoFar ∧
      givenBytes past + after.leaving ≤ guard.maxDecompressedSize ∧
      givenBytes past + after.leaving ≤ guard.maxRatio * after.encodedSoFar) :
    Bounded codec guard after past := by
  have hratio : guard.maxRatio * chain.encodedSoFar ≤ guard.maxRatio * after.encodedSoFar :=
    Nat.mul_le_mul_left _ hencoded
  have hsize := h.size
  have hold := h.ratio
  refine ⟨?_, ?_, hcounted, ?_, hdry, ?_, ?_, ?_⟩
  · refine h.flagged.congr ?_
    rw [hbefore, hafter]
    simp [hcounts]
  · rw [hafter]
    simp
  · intro hzero other hother
    have hzero' : chain.encodedSoFar = 0 := by omega
    have hunread' := h.unread hzero'
    rw [hbefore] at hunread'
    rw [hafter] at hother
    rcases List.mem_append.mp hother with hfront | hrest
    · exact hunread' other (List.mem_append_left _ hfront)
    · rcases List.mem_cons.mp hrest with rfl | hback
      · exact hunread hzero
      · exact hunread' other (List.mem_append_right _ (List.mem_cons_of_mem _ hback))
  · intro outermost hhead
    have hdelivered := h.decoded
    rw [hbefore] at hdelivered
    rw [hafter] at hhead
    rcases hgiven with hnone | ⟨rfl, hgiven, -, -⟩
    · cases front with
      | nil =>
        have hfirst := hdelivered stage rfl
        cases hhead
        omega
      | cons first rest =>
        have hfirst := hdelivered outermost hhead
        omega
    · cases hhead
      exact hgiven
  · rcases hgiven with hnone | ⟨-, -, hgiven, -⟩
    · omega
    · exact hgiven
  · rcases hgiven with hnone | ⟨-, -, -, hgiven⟩
    · omega
    · exact hgiven

theorem poll_wire (h : Bounded codec guard chain past) (answer : Outcome)
    (hbelow : chain.below = []) :
    Bounded codec guard { chain with control := .answered answer } (past ++ [.wire answer]) := by
  have hwaiting : chain.waiting ≠ [] := by
    intro hnil
    have hne := h.nonempty
    rw [Chain.stages, hnil, hbelow] at hne
    exact hne rfl
  refine h.keep rfl rfl ?_ (fun hne => absurd hbelow hne) ?_
  · have hcounted := h.counted
    simp only [Chain.arriving, hbelow, if_true, Chain.underway, wireBytes, List.map_append,
      List.map_cons, List.map_nil, List.sum_append, List.sum_cons, List.sum_nil, Nat.add_zero]
      at hcounted ⊢
    omega
  · simp [Chain.leaving, hwaiting, givenBytes]

theorem checkLimits_eq_none {decoded encoded : Nat} (h : guard.checkLimits decoded encoded = none) :
    decoded ≤ guard.maxDecompressedSize ∧ (0 < encoded → decoded ≤ guard.maxRatio * encoded) := by
  unfold ExpansionGuard.checkLimits at h
  dsimp only at h
  split_ifs at h with hsize hratio
  refine ⟨by omega, fun hpos => ?_⟩
  rw [not_and, Nat.not_lt] at hratio
  rw [Nat.mul_comm]
  exact Nat.le_trans (hratio hpos) (Nat.min_le_left _ _)

theorem poll_stage (h : Bounded codec guard chain past) (hsilent : codec.Silent)
    {inner : List (Stage D)} (hbelow : chain.below = stage :: inner) {layer : Layer D}
    {outcome : Outcome}
    (hpoll : stage.layer.Polls codec guard chain.encodedSoFar (layer, some outcome)) :
    Bounded codec guard
      { chain with below := { stage with layer := layer } :: inner, control := .answered outcome }
      past := by
  have hbefore : chain.stages = chain.waiting.reverse ++ stage :: inner := by
    rw [Chain.stages, hbelow]
  have hmem : stage ∈ chain.stages := by
    rw [hbefore]
    simp
  have hcounted := h.counted
  cases hpoll with
  | stops reader outcome hreader hbytes =>
    refine h.change hbefore rfl rfl (Nat.le_refl _) (Nat.le_refl _) ?_ ?_ ?_ (Or.inl ?_)
    · simp [Chain.arriving]
      omega
    · intro hzero decoder hdecoder
      rcases hreader with rfl | rfl
      · exact h.unread hzero stage hmem decoder hdecoder
      · cases hdecoder
    · exact fun _ _ => hbytes
    · simp [Chain.leaving, Chain.underway, hbytes]
  | gives decoder chunk next outcome hreader hread hchunk hpassed =>
    -- a decoder that gives something has read something
    have hpos : 0 < chain.encodedSoFar := by
      rw [Nat.pos_iff_ne_zero]
      intro hzero
      exact hchunk (hsilent decoder (h.unread hzero stage hmem decoder hreader) chunk next hread)
    refine h.change hbefore rfl rfl (Nat.le_add_right _ _) (Nat.le_refl _) ?_ ?_ ?_ ?_
    · simp [Chain.arriving]
      omega
    · intro hzero
      exact absurd hzero (Nat.pos_iff_ne_zero.mp hpos)
    · intro hzero
      exact absurd hzero (Nat.pos_iff_ne_zero.mp hpos)
    · by_cases hwaiting : chain.waiting = []
      · by_cases hbytes : outcome.bytes = []
        · exact Or.inl (by simp [Chain.leaving, Chain.underway, hbytes])
        · obtain ⟨heq, hlimits⟩ := hpassed hbytes
          obtain ⟨hsize, hratio⟩ := checkLimits_eq_none hlimits
          have hdelivered := h.decoded stage (by rw [hbefore, hwaiting]; rfl)
          have hratio := hratio hpos
          refine Or.inr ⟨by rw [hwaiting]; rfl, ?_⟩
          simp only [Chain.leaving, hwaiting, if_true, Chain.underway, heq]
          have hle : givenBytes past ≤ stage.layer.decodedSoFar := by omega
          refine ⟨by omega, by omega, by omega⟩
      · exact Or.inl (by simp [Chain.leaving, hwaiting])

theorem tell_stage (h : Bounded codec guard chain past) {outer : List (Stage D)}
    (hwaiting : chain.waiting = stage :: outer) {outcome : Outcome}
    (hcontrol : chain.control = .answered outcome) :
    Bounded codec guard (chain.tell codec outcome).1 past := by
  have hbefore : chain.stages = outer.reverse ++ stage :: chain.below := by
    simp [Chain.stages, hwaiting]
  have hcounts : stage.countsInput = chain.below.isEmpty := by
    have hflagged := h.flagged
    rw [hbefore] at hflagged
    exact hflagged.countsInput
  have hmem : stage ∈ chain.stages := by
    rw [hbefore]
    simp
  obtain ⟨hdecoded, hanswer, hreader⟩ := stage.layer.tell_spec codec outcome
  have hunderway : ∀ answer : Option Outcome, (∀ o, answer = some o → o.bytes = []) →
      ∀ (n : Nat) (ws bs : List (Stage D)),
        Chain.underway ⟨n, ws, bs, answer.elim .polling .answered⟩ = [] := by
    intro answer hbytes n ws bs
    cases answer with
    | none => rfl
    | some o => exact hbytes o rfl
  unfold Chain.tell
  rw [hwaiting]
  dsimp only
  have hcounted := h.counted
  refine h.change hbefore rfl rfl (Nat.le_of_eq hdecoded.symm) (Nat.le_add_right _ _) ?_ ?_ ?_ ?_
  · simp only [Chain.arriving, List.cons_ne_nil, if_false, Chain.counted, hcounts,
      Chain.underway, hcontrol] at hcounted ⊢
    cases hbelow : chain.below with
    | nil => simpa [hbelow] using hcounted
    | cons inner rest =>
      simp only [List.isEmpty_cons, Bool.false_eq_true, if_false]
      omega
  · intro hzero decoder hdecoder
    have hzero' : chain.encodedSoFar = 0 := by
      dsimp only at hzero
      omega
    have hbytes : outcome.bytes = [] := by
      by_cases hbelow : chain.below = []
      · have hnone : Chain.counted stage outcome = 0 := by
          dsimp only at hzero
          omega
        simpa [Chain.counted, hcounts, hbelow] using hnone
      · have hdry := h.dry hzero' hbelow
        rwa [Chain.underway, hcontrol] at hdry
    have hunread := h.unread hzero' stage hmem
    rcases hreader hbytes decoder hdecoder with hsame | ⟨before, hbefore, rfl⟩
    · exact hunread decoder hsame
    · exact (hunread before hbefore).resume
  · exact fun _ _ => hunderway _ hanswer _ _ _
  · left
    rw [Chain.leaving, hunderway _ hanswer]
    simp

theorem poll (h : Bounded codec guard chain past) (hsilent : codec.Silent) (answer : Outcome)
    (hcontrol : chain.control = .polling) :
    Bounded codec guard (chain.poll codec guard answer).1
      (past ++ (chain.poll codec guard answer).2) := by
  unfold Chain.poll
  cases hbelow : chain.below with
  | nil =>
    have hwire := h.poll_wire answer hbelow
    rw [hbelow] at hwire
    exact hwire
  | cons stage inner =>
    have hpolls := stage.layer.polls codec guard chain.encodedSoFar
    dsimp only
    cases hpoll : stage.layer.poll codec guard chain.encodedSoFar with
    | mk layer result =>
      rw [hpoll] at hpolls
      cases result with
      | some outcome =>
        dsimp only
        rw [List.append_nil]
        exact h.poll_stage hsilent hbelow hpolls
      | none =>
        -- the stage waits for the one below it
        cases hpolls
        refine h.keep rfl ?_ ?_ (fun _ => Or.inl ?_) ?_
        · simp [Chain.stages, hbelow]
        · have hcounted := h.counted
          simp only [Chain.arriving, Chain.underway, hcontrol, List.append_nil,
            List.length_nil, ite_self, Nat.add_zero] at hcounted ⊢
          exact hcounted
        · simp [Chain.underway, hcontrol]
        · simp [Chain.leaving, Chain.underway, hcontrol]

theorem step (h : Bounded codec guard chain past) (hsilent : codec.Silent) (answer : Outcome) :
    Bounded codec guard (chain.step codec guard answer).1
      (past ++ (chain.step codec guard answer).2) := by
  unfold Chain.step
  cases hcontrol : chain.control with
  | idle =>
    refine h.keep rfl rfl ?_ (fun _ => Or.inl rfl) ?_
    · have hcounted := h.counted
      simp only [Chain.arriving, Chain.underway, hcontrol, List.append_nil, List.length_nil,
        ite_self, Nat.add_zero] at hcounted ⊢
      exact hcounted
    · simp [Chain.leaving, Chain.underway, hcontrol]
  | polling => exact h.poll hsilent answer hcontrol
  | answered outcome =>
    cases hwaiting : chain.waiting with
    | cons stage outer =>
      have hevents : (chain.tell codec outcome).2 = [] := by
        unfold Chain.tell
        rw [hwaiting]
      dsimp only
      rw [hevents, List.append_nil]
      exact h.tell_stage hwaiting hcontrol
    | nil =>
      unfold Chain.tell
      rw [hwaiting]
      have hcounted := h.counted
      refine h.keep rfl (by simp [Chain.stages, hwaiting]) ?_ (fun _ => Or.inl rfl) ?_
      · simp only [Chain.arriving, Chain.underway, List.length_nil, ite_self, Nat.add_zero,
          wireBytes, List.map_append, List.map_cons, List.map_nil, List.sum_append,
          List.sum_cons, List.sum_nil]
        exact Nat.le_trans (Nat.le_add_right _ _) hcounted
      · simp [Chain.leaving, Chain.underway, hcontrol, hwaiting, givenBytes]

/-- **The bound holds at every moment.** -/
theorem run (h : Bounded codec guard chain past) (hsilent : codec.Silent)
    (answers : List Outcome) :
    Bounded codec guard (chain.run codec guard answers).1
      (past ++ (chain.run codec guard answers).2) := by
  induction answers generalizing chain past with
  | nil =>
    rw [Chain.run, List.append_nil]
    exact h
  | cons answer answers ih =>
    have hnext := ih (h.step hsilent answer)
    rw [Chain.run]
    rw [List.append_assoc] at hnext
    exact hnext

end Bounded

theorem flagged_of_flags {n : Nat} {stages : List (Stage D)}
    (h : stages.map Stage.countsInput = List.replicate n false ++ [true]) : Flagged stages := by
  induction n generalizing stages with
  | zero =>
    obtain ⟨stage, rfl, hstage⟩ := List.map_eq_singleton_iff.mp h
    exact ⟨hstage, trivial⟩
  | succ n ih =>
    rw [List.replicate_succ, List.cons_append] at h
    obtain ⟨stage, inner, rfl, hstage, hinner⟩ := List.map_eq_cons_iff.mp h
    refine ⟨?_, ih hinner⟩
    cases inner with
    | nil => simp at hinner
    | cons other rest => exact hstage

theorem bounded_new (codec : Codec D) (guard : ExpansionGuard)
    {decoders : List (ContentCoding × Bool)} (hne : decoders ≠ [])
    (hflags : decoders.map Prod.snd = (List.replicate decoders.length false).set 0 true) :
    Bounded codec guard (Chain.new codec decoders) [] := by
  have harriving : (Chain.new codec decoders).arriving = 0 := ite_self 0
  have hleaving : (Chain.new codec decoders).leaving = 0 := ite_self 0
  refine ⟨?_, ?_, ?_, ?_, fun _ _ => rfl, ?_, ?_, ?_⟩
  · cases decoders with
    | nil => exact absurd rfl hne
    | cons first rest =>
      refine flagged_of_flags (n := rest.length) ?_
      have hreversed := congrArg List.reverse hflags
      simp only [List.length_cons, List.replicate_succ, List.set_cons_zero, List.reverse_cons,
        List.reverse_replicate] at hreversed
      rw [← hreversed]
      simp [Chain.stages, Chain.new, Function.comp_def]
  · simpa [Chain.stages, Chain.new] using hne
  · rw [harriving]
    exact Nat.le_refl 0
  · intro _ stage hstage decoder hdecoder
    simp only [Chain.stages, Chain.new, List.reverse_nil, List.nil_append, List.mem_reverse,
      List.mem_map] at hstage
    obtain ⟨entry, -, rfl⟩ := hstage
    cases hdecoder
    exact .start entry.1
  · rw [hleaving]
    exact fun _ _ => Nat.zero_le _
  · rw [hleaving]
    exact Nat.zero_le _
  · rw [hleaving]
    exact Nat.zero_le _

/-- **The guard holds end to end.** Of a response that is decoded at all, the consumer has at every
moment at most `maxDecompressedSize` bytes, and at most `maxRatio` times what the wire has brought.
The codings of the field are undone from the last to the first with `identity` passed over, the
first decoder alone counts what it reads, and a field with more tokens than there may be is refused.
-/
theorem decodeChain_bounds (codec : Codec D) (hsilent : codec.Silent) (guard : ExpansionGuard)
    (headers : HeaderMap) :
    (maxContentCodings < (tokens (headers.getAll .contentEncoding)).length →
      ∃ error, decodeChain headers = .error error) ∧
    ∀ stripped decoders, decodeChain headers = .ok (stripped, decoders) → decoders ≠ [] →
      (∃ codings : List ContentCoding,
        (tokens (headers.getAll .contentEncoding)).map ContentCoding.parse = codings.map some ∧
          decoders.map Prod.fst = (codings.filter fun coding => coding ≠ .identity).reverse) ∧
      decoders.map Prod.snd = (List.replicate decoders.length false).set 0 true ∧
      ∀ answers,
        givenBytes ((Chain.new codec decoders).run codec guard answers).2 ≤
            guard.maxDecompressedSize ∧
          givenBytes ((Chain.new codec decoders).run codec guard answers).2 ≤
            guard.maxRatio *
              wireBytes ((Chain.new codec decoders).run codec guard answers).2 := by
  have hparsed : ∀ codings, parseContentEncoding (headers.getAll .contentEncoding) = .ok codings →
      (tokens (headers.getAll .contentEncoding)).map ContentCoding.parse = codings.map some ∧
        codings.length ≤ maxContentCodings := by
    intro codings hcodings
    obtain ⟨⟨more, rfl, hmore⟩, hfew⟩ := parses_of_parseContentEncoding hcodings
    exact ⟨hmore, hfew (Nat.zero_le _)⟩
  constructor
  · intro hmany
    have hlisted : headers.containsKey .contentEncoding = true := by
      rw [HeaderMap.containsKey_iff]
      intro hnil
      rw [hnil] at hmany
      cases hmany
    unfold decodeChain
    rw [if_pos hlisted]
    cases hcodings : parseContentEncoding (headers.getAll .contentEncoding) with
    | error error => exact ⟨error, rfl⟩
    | ok codings =>
      obtain ⟨hmap, hfew⟩ := hparsed codings hcodings
      have hlength := congrArg List.length hmap
      rw [List.length_map, List.length_map] at hlength
      omega
  · intro stripped decoders h hne
    unfold decodeChain at h
    split_ifs at h with hlisted
    · cases hcodings : parseContentEncoding (headers.getAll .contentEncoding) with
      | error error =>
        rw [hcodings] at h
        cases h
      | ok codings =>
        rw [hcodings] at h
        cases h
        obtain ⟨horder, hflags⟩ := decodersOf_eq codings
        refine ⟨⟨codings, (hparsed codings hcodings).1, horder⟩, hflags, fun answers => ?_⟩
        have hrun := (bounded_new codec guard hne hflags).run hsilent answers
        rw [List.nil_append] at hrun
        refine ⟨Nat.le_trans (Nat.le_add_right _ _) hrun.size, ?_⟩
        calc givenBytes _ ≤ _ := Nat.le_trans (Nat.le_add_right _ _) hrun.ratio
          _ ≤ _ := Nat.mul_le_mul_left _ (Nat.le_trans (Nat.le_add_right _ _) hrun.counted)
    · cases h
      exact absurd rfl hne

/-! ### Two decoders that double what they read -/

/-- A decoder that gives every chunk twice. -/
def Codec.doubling : Codec (Bytes × Bool) where
  start _ := ([], false)
  read
    | ([], false) => .asks fun
        | some chunk => (chunk ++ chunk, false)
        | none => ([], true)
    | ([], true) => .gives [] ([], true)
    | (out, ended) => .gives out ([], ended)

theorem Codec.silent_doubling : Codec.doubling.Silent := by
  have hempty : ∀ decoder, Unread Codec.doubling decoder → decoder.1 = [] := by
    intro decoder h
    induction h with
    | start coding => rfl
    | @ended decoder told _ hread ih =>
      obtain ⟨out, ended⟩ := decoder
      cases ih
      cases ended with
      | false =>
        cases hread
        rfl
      | true => cases hread
  rintro ⟨out, ended⟩ h chunk next hread
  cases hempty _ h
  cases ended with
  | false => cases hread
  | true =>
    cases hread
    rfl

def doubleCoded : HeaderMap := [(.contentEncoding, .fromStatic "gzip, identity,, br")]

/-- One byte is read and four come out, which is as much as the ratio allows. -/
theorem decodeChain_bounds_doubling :
    givenBytes ((Chain.new Codec.doubling [(.brotli, true), (.gzip, false)]).run Codec.doubling
        ⟨100, 4⟩ (List.replicate 9 (.data [7]))).2 = 4 ∧
      givenBytes ((Chain.new Codec.doubling [(.brotli, true), (.gzip, false)]).run Codec.doubling
        ⟨100, 4⟩ (List.replicate 9 (.data [7]))).2 ≤
        4 * wireBytes ((Chain.new Codec.doubling [(.brotli, true), (.gzip, false)]).run
          Codec.doubling ⟨100, 4⟩ (List.replicate 9 (.data [7]))).2 :=
  ⟨by decide +kernel, (((decodeChain_bounds Codec.doubling Codec.silent_doubling ⟨100, 4⟩
    doubleCoded).2 _ _ rfl (by decide)).2.2 (List.replicate 9 (.data [7]))).2⟩

end Chromulate.Compression
