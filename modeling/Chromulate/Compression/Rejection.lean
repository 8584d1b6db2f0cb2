import Chromulate.Compression.Chain

/-!
# After a rejection

`GuardedStream::poll_next` goes on polling after `check_limits` has rejected what came out of its
decoder. What was rejected for its size stays rejected, because the count of decoded bytes only
grows. A rejection by a stage further in is final too, since the stage above lets go of its decoder
at an error. But the allowance of the ratio grows with what the wire brings, so the outermost stage
may reject one chunk and pass the next, with the first missing from what the consumer has.

**Theorem (`stays_rejected`).** In every run in which the outermost stage rejects nothing for its
ratio alone, nothing is delivered after a rejection, and what is delivered is the front of what the
outermost decoder gives.
-/

namespace Chromulate.Compression

variable {D : Type*} {codec : Codec D} {guard : ExpansionGuard}

/-- The bytes that the consumer gets in an event. -/
def Event.delivers : Event → Bytes
  | .given outcome => outcome.bytes
  | .wire _ => []

/-- The consumer is told that the body is too large. -/
def Event.rejects : Event → Bool
  | .given (.error (.bodyTooLarge _)) => true
  | _ => false

/-- All that the consumer gets. -/
def delivered (events : List Event) : Bytes := events.flatMap Event.delivers

/-- A stage that will pass nothing any more: it has let go of its decoder, or is over the size. -/
def Layer.Dead (guard : ExpansionGuard) (layer : Layer D) : Prop :=
  layer.reader = none ∨ guard.maxDecompressedSize < layer.decodedSoFar

namespace Chain

/-- What the outermost decoder gives in a step. -/
def gave (codec : Codec D) (chain : Chain D) : Bytes :=
  match chain.control, chain.waiting, chain.below with
  | .polling, [], stage :: _ =>
    match stage.layer.reader.map codec.read with
    | some (.gives chunk _) => chunk
    | _ => []
  | _, _, _ => []

/-- In this step the outermost stage rejects what is within the size. -/
def overRatio (codec : Codec D) (guard : ExpansionGuard) (chain : Chain D) : Bool :=
  match chain.below with
  | [] => false
  | stage :: _ =>
    let decoded := stage.layer.decodedSoFar + (chain.gave codec).length
    chain.gave codec ≠ [] && decoded ≤ guard.maxDecompressedSize &&
      (guard.checkLimits decoded chain.encodedSoFar).isSome

/-- No step of a run does that. -/
def withinRatio (codec : Codec D) (guard : ExpansionGuard) (chain : Chain D) :
    List Outcome → Bool
  | [] => true
  | answer :: answers =>
    !chain.overRatio codec guard &&
      withinRatio codec guard (chain.step codec guard answer).1 answers

/-- All that the outermost decoder gives in a run, rejected or not. -/
def decoding (codec : Codec D) (guard : ExpansionGuard) (chain : Chain D) : List Outcome → Bytes
  | [] => []
  | answer :: answers =>
    chain.gave codec ++ decoding codec guard (chain.step codec guard answer).1 answers

/-- What is on its way to the consumer. -/
def out (chain : Chain D) : Bytes := if chain.waiting = [] then chain.underway else []

/-- The outermost stage will pass nothing any more. -/
def Dead (guard : ExpansionGuard) (chain : Chain D) : Prop :=
  ∀ stage, chain.stages.head? = some stage → stage.layer.Dead guard

end Chain

/-- A stage that is later than it was: it has let go of its decoder or has not, and has counted on.
-/
def Layer.Later (layer after : Layer D) : Prop :=
  (layer.reader = none → after.reader = none) ∧ layer.decodedSoFar ≤ after.decodedSoFar

theorem Layer.Later.refl (layer : Layer D) : layer.Later layer := ⟨id, Nat.le_refl _⟩

theorem Layer.later_tell (layer : Layer D) (outcome : Outcome) :
    layer.Later (layer.tell codec outcome).1 := by
  refine ⟨fun hnone => ?_, Nat.le_of_eq (layer.tell_spec codec outcome).1.symm⟩
  cases outcome with
  | data chunk => cases chunk <;> simp [Layer.tell, hnone]
  | _ => simp [Layer.tell, hnone]

/-- What one step does to the outermost stage and to what is on its way from it. -/
structure StepSpec (codec : Codec D) (guard : ExpansionGuard) (chain after : Chain D)
    (events : List Event) : Prop where
  later : ∀ stage', after.stages.head? = some stage' →
    ∃ stage, chain.stages.head? = some stage ∧ stage.layer.Later stage'.layer
  /-- It moves on what there is, or the outermost decoder gives something that passes or does not.
  -/
  moves : delivered events ++ after.out = chain.out ∧ chain.gave codec = [] ∨
    events = [] ∧ chain.out = [] ∧ after.out = chain.gave codec ∧ ¬ chain.Dead guard ∨
    events = [] ∧ chain.out = [] ∧ after.out = [] ∧ after.Dead guard
  single : events = [] ∨ ∃ event, events = [event]
  rejects : ∀ event ∈ events, event.rejects →
    chain.waiting = [] ∧ ∃ error, chain.control = .answered (.error error)
  dies : ∀ error, after.waiting = [] → after.control = .answered (.error error) → after.Dead guard

namespace Chain

variable {chain : Chain D}

/-- The outermost stage is the last one that waits. -/
theorem head?_stages {stage : Stage D} {rest : List (Stage D)} (h : chain.waiting = stage :: rest) :
    chain.stages.head? = (stage :: rest).getLast? := by
  rw [stages, h, List.head?_append_of_ne_nil _ (by simp), List.head?_reverse]

theorem head?_stages_congr {after : Chain D} (h : after.waiting = chain.waiting)
    (hne : chain.waiting ≠ []) : after.stages.head? = chain.stages.head? := by
  obtain ⟨stage, rest, heq⟩ := List.exists_cons_of_ne_nil hne
  rw [head?_stages heq, head?_stages (h.trans heq)]

theorem gave_of_control (h : chain.control ≠ .polling) : chain.gave codec = [] := by
  unfold gave
  split
  · rename_i hcontrol _ _
    exact absurd hcontrol h
  · rfl

theorem gave_of_waiting (h : chain.waiting ≠ []) : chain.gave codec = [] := by
  unfold gave
  split
  · rename_i _ hwaiting _
    exact absurd hwaiting h
  · rfl

theorem out_of_waiting (h : chain.waiting ≠ []) : chain.out = [] := if_neg h

/-- A step on stages that the outermost one waits for. -/
theorem spec_of_waiting {after : Chain D} {events : List Event} (hwaiting : chain.waiting ≠ [])
    (hafter : after.waiting ≠ []) (hhead : after.stages.head? = chain.stages.head?)
    (hevents : events = [] ∨ ∃ answer, events = [.wire answer]) :
    StepSpec codec guard chain after events where
  later stage hstage := ⟨stage, hhead ▸ hstage, .refl _⟩
  moves := by
    refine Or.inl ⟨?_, gave_of_waiting hwaiting⟩
    rw [out_of_waiting hwaiting, out_of_waiting hafter]
    rcases hevents with rfl | ⟨answer, rfl⟩ <;> rfl
  single := hevents.imp id fun ⟨answer, h⟩ => ⟨_, h⟩
  rejects event hevent hrejects := by
    rcases hevents with rfl | ⟨answer, rfl⟩
    · cases hevent
    · cases List.mem_singleton.mp hevent
      cases hrejects
  dies _ hnil := absurd hnil hafter

section Outermost

variable {stage : Stage D} {inner : List (Stage D)} (hcontrol : chain.control = .polling)
  (hwaiting : chain.waiting = []) (hbelow : chain.below = stage :: inner)

include hcontrol hwaiting hbelow

theorem gave_of_polling :
    chain.gave codec =
      match stage.layer.reader.map codec.read with
      | some (.gives chunk _) => chunk
      | _ => [] := by
  rw [gave, hcontrol, hwaiting, hbelow]

theorem spec_answered {layer : Layer D} {outcome : Outcome} (hlater : stage.layer.Later layer)
    (hmoves : outcome.bytes = [] ∧ chain.gave codec = [] ∨
      outcome.bytes = chain.gave codec ∧ ¬ stage.layer.Dead guard ∨
      outcome.bytes = [] ∧ layer.Dead guard)
    (hdies : ∀ error, outcome = .error error → layer.Dead guard) :
    StepSpec codec guard chain
      { chain with below := { stage with layer := layer } :: inner, control := .answered outcome }
      [] := by
  have hhead : chain.stages.head? = some stage := by simp [stages, hwaiting, hbelow]
  have hout : chain.out = [] := by simp [out, hwaiting, underway, hcontrol]
  have hafter : Chain.out { chain with
      below := { stage with layer := layer } :: inner, control := .answered outcome } =
        outcome.bytes := by simp [out, hwaiting, underway]
  have hdead : ∀ h : layer.Dead guard, Chain.Dead guard { chain with
      below := { stage with layer := layer } :: inner, control := .answered outcome } := by
    intro h stage' hstage'
    simp only [stages, hwaiting, List.reverse_nil, List.nil_append, List.head?_cons,
      Option.some.injEq] at hstage'
    rw [← hstage']
    exact h
  refine ⟨?_, ?_, Or.inl rfl, by simp, ?_⟩
  · intro stage' hstage'
    simp only [stages, hwaiting, List.reverse_nil, List.nil_append, List.head?_cons,
      Option.some.injEq] at hstage'
    exact ⟨stage, hhead, hstage' ▸ hlater⟩
  · rw [hafter, hout]
    rcases hmoves with ⟨hbytes, hgave⟩ | ⟨hbytes, halive⟩ | ⟨hbytes, hlayer⟩
    · exact Or.inl ⟨hbytes, hgave⟩
    · exact Or.inr (Or.inl ⟨rfl, rfl, hbytes, fun h => halive (h stage hhead)⟩)
    · exact Or.inr (Or.inr ⟨rfl, rfl, hbytes, hdead hlayer⟩)
  · intro error _ herror
    cases herror
    exact hdead (hdies error rfl)

theorem spec_poll (hratio : chain.overRatio codec guard = false) (answer : Outcome) :
    StepSpec codec guard chain (chain.poll codec guard answer).1
      (chain.poll codec guard answer).2 := by
  have hgave := @gave_of_polling _ codec _ _ _ hcontrol hwaiting hbelow
  have hanswered := @spec_answered _ codec guard _ _ _ hcontrol hwaiting hbelow
  cases hreader : stage.layer.reader with
  | none =>
    rw [hreader] at hgave
    simp only [poll, hbelow, Layer.poll, hreader]
    exact hanswered (.refl _) (Or.inl ⟨rfl, hgave⟩) (by simp)
  | some decoder =>
    rw [hreader] at hgave
    cases hread : codec.read decoder with
    | asks told =>
      simp only [Option.map_some, hread] at hgave
      simp only [poll, hbelow, Layer.poll, hreader, hread]
      refine ⟨fun stage' hstage' => ⟨stage', ?_, .refl _⟩, Or.inl ⟨?_, hgave⟩, Or.inl rfl,
        by simp, by simp⟩
      · simpa [stages, hwaiting, hbelow] using hstage'
      · simp [out, hwaiting, underway, hcontrol, delivered]
    | fails =>
      simp only [Option.map_some, hread] at hgave
      simp only [poll, hbelow, Layer.poll, hreader, hread]
      exact hanswered ⟨fun _ => rfl, Nat.le_refl _⟩ (Or.inl ⟨rfl, hgave⟩)
        fun _ _ => Or.inl rfl
    | gives chunk next =>
      simp only [Option.map_some, hread] at hgave
      cases chunk with
      | nil =>
        simp only [poll, hbelow, Layer.poll, hreader, hread]
        exact hanswered ⟨fun _ => rfl, Nat.le_refl _⟩ (Or.inl ⟨rfl, hgave⟩) (by simp)
      | cons first rest =>
        simp only [overRatio, hbelow, hgave] at hratio
        simp only [poll, hbelow, Layer.poll, hreader, hread]
        have hlater : stage.layer.Later { stage.layer with
            reader := some next
            decodedSoFar := stage.layer.decodedSoFar + (first :: rest).length } :=
          ⟨fun h => absurd (hreader.symm.trans h) (by simp), Nat.le_add_right _ _⟩
        cases hlimits : guard.checkLimits
            (stage.layer.decodedSoFar + (first :: rest).length) chain.encodedSoFar with
        | none =>
          obtain ⟨hsize, -⟩ := Bounded.checkLimits_eq_none hlimits
          refine hanswered hlater (Or.inr (Or.inl ⟨hgave.symm, ?_⟩)) (by simp)
          rintro (hnone | hover)
          · rw [hreader] at hnone
            cases hnone
          · omega
        | some error =>
          have hover : guard.maxDecompressedSize <
              stage.layer.decodedSoFar + (first :: rest).length := by
            rw [hlimits] at hratio
            simpa using hratio
          exact hanswered hlater (Or.inr (Or.inr ⟨rfl, Or.inr hover⟩))
            fun _ _ => Or.inr hover

end Outermost

/-- The outermost stage is told what the one below it answered, or another one is. -/
theorem spec_tell {outcome : Outcome} (hcontrol : chain.control = .answered outcome) :
    StepSpec codec guard chain (chain.tell codec outcome).1 (chain.tell codec outcome).2 := by
  have hgave : chain.gave codec = [] := gave_of_control (by simp [hcontrol])
  unfold tell
  cases hwaiting : chain.waiting with
  | nil =>
    refine ⟨fun stage hstage => ⟨stage, ?_, .refl _⟩, Or.inl ⟨?_, hgave⟩, Or.inr ⟨_, rfl⟩, ?_,
      by simp⟩
    · simpa [stages, hwaiting] using hstage
    · simp [delivered, Event.delivers, out, underway, hwaiting, hcontrol]
    · intro event hevent hrejects
      cases List.mem_singleton.mp hevent
      cases outcome with
      | error error => exact ⟨hwaiting, error, hcontrol⟩
      | _ => cases hrejects
  | cons stage outer =>
    have hbefore : chain.waiting ≠ [] := by simp [hwaiting]
    obtain ⟨-, hbytes, -⟩ := stage.layer.tell_spec codec outcome
    cases outer with
    | cons last rest =>
      refine spec_of_waiting hbefore (by simp) ?_ (Or.inl rfl)
      rw [head?_stages hwaiting, head?_stages rfl]
      simp
    | nil =>
      have hhead : chain.stages.head? = some stage := by simp [stages, hwaiting]
      refine ⟨fun stage' hstage' => ⟨stage, hhead, ?_⟩, Or.inl ⟨?_, hgave⟩, Or.inl rfl, by simp,
        ?_⟩
      · simp only [stages, List.reverse_nil, List.nil_append, List.head?_cons,
          Option.some.injEq] at hstage'
        rw [← hstage']
        exact stage.layer.later_tell outcome
      · rw [out_of_waiting hbefore]
        simp only [delivered, List.flatMap_nil, List.nil_append, out, if_true, underway]
        cases hanswer : (stage.layer.tell codec outcome).2 with
        | none => rfl
        | some answer => exact hbytes answer hanswer
      · intro error _ herror stage' hstage'
        simp only [stages, List.reverse_nil, List.nil_append, List.head?_cons,
          Option.some.injEq] at hstage'
        rw [← hstage']
        left
        -- only an error of the source makes one of the stage's own
        cases outcome with
        | error source => rfl
        | data chunk => cases chunk <;> simp [Layer.tell] at herror
        | _ => simp [Layer.tell] at herror

/-- **What a step does**, if the outermost stage rejects nothing for its ratio alone. -/
theorem step_spec (hne : chain.stages ≠ []) (hratio : chain.overRatio codec guard = false)
    (answer : Outcome) :
    StepSpec codec guard chain (chain.step codec guard answer).1
      (chain.step codec guard answer).2 := by
  unfold step
  cases hcontrol : chain.control with
  | answered outcome => exact spec_tell hcontrol
  | idle =>
    refine ⟨fun stage hstage => ⟨stage, hstage, .refl _⟩,
      Or.inl ⟨?_, gave_of_control (by simp [hcontrol])⟩, Or.inl rfl, by simp, by simp⟩
    simp [delivered, out, underway, hcontrol]
  | polling =>
    by_cases hwaiting : chain.waiting = []
    · cases hbelow : chain.below with
      | nil => exact absurd (by simp [stages, hwaiting, hbelow]) hne
      | cons stage inner => exact spec_poll hcontrol hwaiting hbelow hratio answer
    · obtain ⟨waits, outer, heq⟩ := List.exists_cons_of_ne_nil hwaiting
      dsimp only
      unfold poll
      cases hbelow : chain.below with
      | nil =>
        exact spec_of_waiting hwaiting hwaiting (head?_stages_congr rfl hwaiting)
          (Or.inr ⟨answer, rfl⟩)
      | cons stage inner =>
        dsimp only
        split
        · refine spec_of_waiting hwaiting (by simp) ?_ (Or.inl rfl)
          rw [head?_stages heq, head?_stages rfl, heq]
          simp
        · exact spec_of_waiting hwaiting hwaiting (head?_stages_congr rfl hwaiting) (Or.inl rfl)

end Chain

/-! ## Over a run -/

/-- What is true between two steps. -/
structure Follows (guard : ExpansionGuard) (chain : Chain D) (past : List Event)
    (decoded : Bytes) : Prop where
  nonempty : chain.stages ≠ []
  front : delivered past ++ chain.out <+: decoded
  /-- As long as the outermost stage may pass something, nothing is missing. -/
  all : ¬ chain.Dead guard → delivered past ++ chain.out = decoded
  final : past.Pairwise fun earlier later => earlier.rejects → later.delivers = []
  rejected : ∀ event ∈ past, event.rejects → chain.Dead guard ∧ chain.out = []
  dies : ∀ error, chain.waiting = [] → chain.control = .answered (.error error) →
    chain.Dead guard

theorem StepSpec.dead {chain after : Chain D} {events : List Event}
    (h : StepSpec codec guard chain after events) (hdead : chain.Dead guard) :
    after.Dead guard := by
  intro stage' hstage'
  obtain ⟨stage, hstage, hreader, hdecoded⟩ := h.later stage' hstage'
  exact (hdead stage hstage).imp hreader fun hover => Nat.lt_of_lt_of_le hover hdecoded

theorem Follows.step {chain after : Chain D} {past events : List Event} {decoded : Bytes}
    (h : Follows guard chain past decoded) (hstep : StepSpec codec guard chain after events)
    (hne : after.stages ≠ []) :
    Follows guard after (past ++ events) (decoded ++ chain.gave codec) := by
  have hdelivered : delivered (past ++ events) = delivered past ++ delivered events :=
    List.flatMap_append
  have hout : chain.out = [] → delivered events = [] ∧ (chain.Dead guard → after.out = []) := by
    intro hnil
    rcases hstep.moves with ⟨hmoved, -⟩ | ⟨rfl, -, -, halive⟩ | ⟨rfl, -, hafter, -⟩
    · rw [hnil, List.append_eq_nil_iff] at hmoved
      exact ⟨hmoved.1, fun _ => hmoved.2⟩
    · exact ⟨rfl, fun hdead => absurd hdead halive⟩
    · exact ⟨rfl, fun _ => hafter⟩
  refine ⟨hne, ?_, fun halive => ?_, ?_, ?_, hstep.dies⟩
  · rw [hdelivered, List.append_assoc]
    rcases hstep.moves with ⟨hmoved, hgave⟩ | ⟨rfl, hnil, hafter, halive⟩ | ⟨rfl, hnil, hafter, -⟩
    · rw [hmoved, hgave, List.append_nil]
      exact h.front
    · have hall := h.all halive
      rw [hnil, List.append_nil] at hall
      rw [hafter, hall]
      exact List.prefix_refl _
    · have hfront := h.front
      rw [hnil] at hfront
      rw [hafter]
      exact hfront.trans (List.prefix_append _ _)
  · have hbefore : ¬ chain.Dead guard := fun hdead => halive (hstep.dead hdead)
    have hall := h.all hbefore
    rw [hdelivered, List.append_assoc]
    rcases hstep.moves with ⟨hmoved, hgave⟩ | ⟨rfl, hnil, hafter, -⟩ | ⟨rfl, -, -, hdead⟩
    · rw [hmoved, hall, hgave, List.append_nil]
    · rw [hnil, List.append_nil] at hall
      rw [hafter, hall]
      rfl
    · exact absurd hdead halive
  · rw [List.pairwise_append]
    refine ⟨h.final, ?_, fun earlier hearlier later hlater hrejects => ?_⟩
    · rcases hstep.single with rfl | ⟨event, rfl⟩
      · exact List.Pairwise.nil
      · exact List.pairwise_singleton _ _
    · have hnil := (hout (h.rejected earlier hearlier hrejects).2).1
      exact List.flatMap_eq_nil_iff.mp hnil later hlater
  · intro event hevent hrejects
    rcases List.mem_append.mp hevent with hpast | hnow
    · obtain ⟨hdead, hnil⟩ := h.rejected event hpast hrejects
      exact ⟨hstep.dead hdead, (hout hnil).2 hdead⟩
    · obtain ⟨hwaiting, error, hcontrol⟩ := hstep.rejects event hnow hrejects
      have hdead := h.dies error hwaiting hcontrol
      have hnil : chain.out = [] := by
        simp [Chain.out, hwaiting, Chain.underway, hcontrol, Outcome.bytes]
      exact ⟨hstep.dead hdead, (hout hnil).2 hdead⟩

theorem stages_step_ne_nil {chain : Chain D} (h : chain.stages ≠ []) (answer : Outcome) :
    (chain.step codec guard answer).1.stages ≠ [] := by
  unfold Chain.step
  split
  · exact h
  · unfold Chain.poll
    split
    · exact h
    · split <;> simp [Chain.stages]
  · unfold Chain.tell
    split
    · exact h
    · simp [Chain.stages]

theorem Follows.run {chain : Chain D} {past : List Event} {decoded : Bytes} {answers : List Outcome}
    (h : Follows guard chain past decoded) (hratio : chain.withinRatio codec guard answers) :
    Follows guard (chain.run codec guard answers).1 (past ++ (chain.run codec guard answers).2)
      (decoded ++ chain.decoding codec guard answers) := by
  induction answers generalizing chain past decoded with
  | nil => simpa [Chain.run, Chain.decoding] using h
  | cons answer answers ih =>
    rw [Chain.withinRatio, Bool.and_eq_true, Bool.not_eq_true'] at hratio
    have hnext := h.step (Chain.step_spec h.nonempty hratio.1 answer)
      (stages_step_ne_nil h.nonempty answer)
    simpa [Chain.run, Chain.decoding, List.append_assoc] using ih hnext hratio.2

/-- Nothing is delivered after a rejection, and nothing is missing from what was delivered. -/
structure StaysRejected (events : List Event) (decoded : Bytes) : Prop where
  final : events.Pairwise fun earlier later => earlier.rejects → later.delivers = []
  front : delivered events <+: decoded

/-- **A body that was rejected stays rejected**, unless it was for its ratio alone. -/
theorem stays_rejected (codec : Codec D) (guard : ExpansionGuard) {codings : List ContentCoding}
    (hguarded : decodersOf codings ≠ []) {answers : List Outcome}
    (hratio : (Chain.new codec (decodersOf codings)).withinRatio codec guard answers) :
    StaysRejected ((Chain.new codec (decodersOf codings)).run codec guard answers).2
      ((Chain.new codec (decodersOf codings)).decoding codec guard answers) := by
  have hstart : Follows guard (Chain.new codec (decodersOf codings)) [] [] := by
    refine ⟨by simpa [Chain.stages, Chain.new] using hguarded, ?_, fun _ => ?_, .nil, by simp, ?_⟩
    · simp [delivered, Chain.out, Chain.underway, Chain.new]
    · simp [delivered, Chain.out, Chain.underway, Chain.new]
    · simp [Chain.new]
  have hrun := hstart.run hratio
  rw [List.nil_append, List.nil_append] at hrun
  exact ⟨hrun.final, (List.prefix_append _ _).trans hrun.front⟩

/-- Three bytes at most: of chunks of two the second is rejected, and so is the third. -/
theorem stays_rejected_oversized :
    StaysRejected ((Chain.new Codec.doubling (decodersOf [.gzip])).run Codec.doubling ⟨3, 2⟩
        (List.replicate 18 (.data [7]))).2
      ((Chain.new Codec.doubling (decodersOf [.gzip])).decoding Codec.doubling ⟨3, 2⟩
        (List.replicate 18 (.data [7]))) :=
  stays_rejected Codec.doubling ⟨3, 2⟩ (by decide) (by decide +kernel)

/-- A decoder that gives three bytes for the first it reads, and then one for each chunk. -/
def Codec.bursting : Codec (Bool × Bytes) where
  start _ := (true, [])
  read
    | (first, []) => .asks fun
        | some chunk => (false, if first then [1, 2, 3] else chunk.take 1)
        | none => (first, [])
    | (first, out) => .gives out (first, [])

/-- What comes after the rejected bytes is delivered without them. -/
theorem ratio_rejection_passes :
    ¬ StaysRejected
      ((Chain.new Codec.bursting (decodersOf [.gzip])).run Codec.bursting ⟨100, 1⟩
        ([.pending, .pending, .data [9], .pending, .pending, .pending, .pending, .pending,
          .data [8, 8, 8], .pending, .pending, .pending])).2
      ((Chain.new Codec.bursting (decodersOf [.gzip])).decoding Codec.bursting ⟨100, 1⟩
        ([.pending, .pending, .data [9], .pending, .pending, .pending, .pending, .pending,
          .data [8, 8, 8], .pending, .pending, .pending])) := by
  intro h
  exact absurd h.final (by decide +kernel)

end Chromulate.Compression
