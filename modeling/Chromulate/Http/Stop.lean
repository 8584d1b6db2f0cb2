import Chromulate.Http.Message
import Chromulate.Lib.Occurrence

/-!
# Reading a body up to a marker

`Stop` in `chromulate-http/src/body.rs`: a body is read chunk by chunk until a condition on what has
been read is met, some bytes more have been read, or a budget is used up.

**What has been read decides.** In each turn of the loop the target is the one that the bytes read
so far have as a whole (`targetOf`), although only the new ones and so many before them are searched
(`retarget_targetOf`).

**Theorem (`read_eq_answer`).** For a marker or no condition, the outcome is a function of the whole
body, however it was split (`answer`).
-/

namespace Chromulate.Http

open Occurrence

inductive Condition where
  | marker (marker : Bytes)
  | predicate (holds : Bytes → Bool)

structure Stop where
  condition : Option Condition
  extra : UInt64
  budget : Option UInt64

inductive StopReason where
  | matched
  | budget
  | endOfBody
  deriving DecidableEq

/-- What a read returns: `Prefix`. -/
structure ReadPart where
  bytes : Bytes
  reason : StopReason
  complete : Bool
  deriving DecidableEq

/-- The loop of `find` from a position on, at most so many times round. -/
def findLoop (haystack : Bytes) (first : UInt8) (rest : Bytes) (lastStart : Nat) :
    Nat → Nat → Option Nat
  | 0, _ => none
  | fuel + 1, position =>
    if position ≤ lastStart then do
      let offset ←
        ((haystack.drop position).take (lastStart + 1 - position)).findIdx? (· == first)
      let start := position + offset
      if (haystack.drop (start + 1)).take rest.length = rest then some start
      else findLoop haystack first rest lastStart fuel (start + 1)
    else none

/-- `find`: the first position of `needle` in `haystack`. -/
def find (haystack needle : Bytes) : Option Nat :=
  match needle with
  | [] => some 0
  | first :: rest =>
    if haystack.length < needle.length then none
    else
      findLoop haystack first rest (haystack.length - needle.length) (haystack.length + 1) 0

namespace Stop

/-- The budget in force. -/
def limit (stop : Stop) : Nat := (stop.budget.getD (.ofNat (2 ^ 64 - 1))).toNat

def matchPoint (stop : Stop) (buf : Bytes) (previous : Nat) : Option Nat :=
  match stop.condition with
  | none => none
  | some (.marker marker) =>
    let start := previous - (marker.length - 1)
    (find (buf.drop start) marker).map fun position => start + position + marker.length
  | some (.predicate holds) => if holds buf then some buf.length else none

/-- Where the read is to end, for a match that ends at `point`. -/
def targetAt (stop : Stop) (point : Nat) : Nat :=
  min (min (point + stop.extra.toNat) (2 ^ 64 - 1)) stop.limit

/-- The target after a chunk: the one there was, or that of a match within the budget. -/
def retarget (stop : Stop) (buf : Bytes) (previous : Nat) (target : Option Nat) : Option Nat :=
  match target with
  | some target => some target
  | none =>
    match stop.matchPoint buf previous with
    | none => none
    | some point => if point ≤ stop.limit then some (stop.targetAt point) else none

/-- The two tests at the head of the loop. -/
def reached (stop : Stop) (buf : Bytes) (target : Option Nat) : Option ReadPart :=
  match target.filter (· ≤ buf.length) with
  | some target => some ⟨buf.take target, .matched, false⟩
  | none =>
    if stop.limit ≤ buf.length then some ⟨buf.take stop.limit, .budget, false⟩ else none

/-- The loop of `Stop::read`, over what the body is still to yield. -/
def readLoop {E : Type*} (stop : Stop) (buf : Bytes) (target : Option Nat) :
    List (Except E Bytes) → Except E ReadPart
  | [] =>
    match stop.reached buf target with
    | some part => .ok part
    | none => .ok ⟨buf, if target.isSome then .matched else .endOfBody, true⟩
  | item :: items =>
    match stop.reached buf target with
    | some part => .ok part
    | none =>
      match item with
      | .error error => .error error
      | .ok chunk =>
        readLoop stop (buf ++ chunk) (stop.retarget (buf ++ chunk) buf.length target) items

def read {E : Type*} (stop : Stop) (body : List (Except E Bytes)) : Except E ReadPart :=
  stop.readLoop [] none body

end Stop

/-! ## Searching -/

variable {haystack : Bytes}

theorem at_cons {first : UInt8} {rest : Bytes} {i : Nat} :
    At (first :: rest) haystack i ↔
      haystack[i]? = some first ∧ (haystack.drop (i + 1)).take rest.length = rest := by
  rw [At, ← List.drop_drop, ← List.head?_drop, @eq_comm _ _ rest, ← List.prefix_iff_eq_take]
  cases haystack.drop i with
  | nil => simp
  | cons byte bytes => simp [List.cons_prefix_cons, eq_comm]

theorem findIdx?_window (first : UInt8) {position lastStart : Nat} (hle : position ≤ lastStart) :
    match ((haystack.drop position).take (lastStart + 1 - position)).findIdx? (· == first) with
    | none => ∀ j, position ≤ j → j ≤ lastStart → haystack[j]? ≠ some first
    | some offset =>
      position + offset ≤ lastStart ∧ haystack[position + offset]? = some first ∧
        ∀ j, position ≤ j → j < position + offset → haystack[j]? ≠ some first := by
  have hwindow : ∀ k, k < lastStart + 1 - position →
      ((haystack.drop position).take (lastStart + 1 - position))[k]? = haystack[position + k]? := by
    intro k hk
    rw [List.getElem?_take_of_lt hk, List.getElem?_drop]
  split
  · rename_i hnone
    rw [List.findIdx?_eq_none_iff] at hnone
    intro j hj hjle heq
    have hmem := List.mem_of_getElem? ((hwindow (j - position) (by omega)).trans
      ((congrArg _ (Nat.add_sub_cancel' hj)).trans heq))
    exact absurd (hnone first hmem) (by simp)
  · rename_i offset hsome
    obtain ⟨hlt, hhere, hbefore⟩ := List.findIdx?_eq_some_iff_getElem.mp hsome
    have hoffset : offset < lastStart + 1 - position := by
      rw [List.length_take] at hlt
      omega
    refine ⟨by omega, ?_, fun j hj hjlt heq => ?_⟩
    · rw [← hwindow offset hoffset, List.getElem?_eq_getElem hlt, eq_of_beq hhere]
    · have hk := (hwindow (j - position) (by omega)).trans
        ((congrArg _ (Nat.add_sub_cancel' hj)).trans heq)
      obtain ⟨hbound, hfirst⟩ := List.getElem?_eq_some_iff.mp hk
      exact hbefore (j - position) (by omega) (by rw [hfirst]; exact beq_self_eq_true _)

/-- The search goes on from a position when there is no occurrence before it. -/
theorem findLoop_eq_first {first : UInt8} {rest : Bytes}
    (hlength : rest.length + 1 ≤ haystack.length) (fuel position : Nat)
    (hfuel : haystack.length < position + fuel)
    (hearly : ∀ j, j < position → ¬ At (first :: rest) haystack j) :
    findLoop haystack first rest (haystack.length - (rest.length + 1)) fuel position =
      Occurrence.first (first :: rest) haystack := by
  have hne : first :: rest ≠ [] := List.cons_ne_nil _ _
  have hlate : ∀ j, haystack.length - (rest.length + 1) < j → ¬ At (first :: rest) haystack j := by
    intro j hj hat
    have := hat.le hne
    rw [List.length_cons] at this
    omega
  induction fuel generalizing position with
  | zero =>
    refine ((first_eq_none hne).mpr fun j => ?_).symm
    by_cases hj : j < position
    · exact hearly j hj
    · exact hlate j (by omega)
  | succ fuel ih =>
    rw [findLoop]
    split_ifs with hle
    · have hscan := @findIdx?_window haystack first _ _ hle
      cases hfound : ((haystack.drop position).take
          (haystack.length - (rest.length + 1) + 1 - position)).findIdx? (· == first) with
      | none =>
        simp only [hfound] at hscan
        refine ((first_eq_none hne).mpr fun j hat => ?_).symm
        by_cases hj : j < position
        · exact hearly j hj hat
        · by_cases hjle : j ≤ haystack.length - (rest.length + 1)
          · exact hscan j (by omega) hjle (at_cons.mp hat).1
          · exact hlate j (by omega) hat
      | some offset =>
        simp only [hfound] at hscan
        obtain ⟨hbound, hbyte, hskipped⟩ := hscan
        have hbefore : ∀ j, j < position + offset → ¬ At (first :: rest) haystack j := by
          intro j hj hat
          by_cases hlt : j < position
          · exact hearly j hlt hat
          · exact hskipped j (by omega) hj (at_cons.mp hat).1
        simp only [Option.bind_eq_bind, Option.bind_some]
        split_ifs with hrest
        · exact ((first_eq_some hne).mpr ⟨at_cons.mpr ⟨hbyte, hrest⟩, hbefore⟩).symm
        · refine ih (position + offset + 1) (by omega) fun j hj hat => ?_
          by_cases hlt : j < position + offset
          · exact hbefore j hlt hat
          · have heq : j = position + offset := by omega
            rw [heq] at hat
            exact hrest (at_cons.mp hat).2
    · refine ((first_eq_none hne).mpr fun j => ?_).symm
      by_cases hj : j < position
      · exact hearly j hj
      · exact hlate j (by omega)

/-- **The search finds the first occurrence.** -/
theorem find_eq_first (haystack : Bytes) {needle : Bytes} (hne : needle ≠ []) :
    find haystack needle = Occurrence.first needle haystack := by
  cases needle with
  | nil => exact absurd rfl hne
  | cons first rest =>
    rw [find]
    split_ifs with hshort
    · refine ((first_eq_none hne).mpr fun j hat => ?_).symm
      have := hat.le hne
      omega
    · exact findLoop_eq_first (not_lt.mp hshort) _ 0 (by omega) (by intro j; omega)

/-! ## The whole body -/

namespace Stop

/-- Where the first match in a body ends, for a marker. -/
def matchEnd (stop : Stop) (body : Bytes) : Option Nat :=
  match stop.condition with
  | some (.marker marker) => (first marker body).map (· + marker.length)
  | _ => none

/-- Where the read of a body is to end on account of a match. -/
def targetOf (stop : Stop) (body : Bytes) : Option Nat :=
  ((stop.matchEnd body).filter (· ≤ stop.limit)).map stop.targetAt

/-- What a read answers, by the body as a whole. -/
def answer (stop : Stop) (body : Bytes) : ReadPart :=
  match (stop.matchEnd body).filter (· ≤ stop.limit) with
  | some point =>
    let length := min (min (point + stop.extra.toNat) stop.limit) body.length
    ⟨body.take length, .matched, body.length < min (point + stop.extra.toNat) stop.limit⟩
  | none =>
    ⟨body.take (min stop.limit body.length),
      if stop.limit ≤ body.length then .budget else .endOfBody, body.length < stop.limit⟩

/-- A condition whose outcome does not depend on the chunks: a marker that is not empty, or none. -/
def Plain (stop : Stop) : Prop :=
  match stop.condition with
  | none => True
  | some (.marker marker) => marker ≠ []
  | some (.predicate _) => False

theorem limit_le (stop : Stop) : stop.limit ≤ 2 ^ 64 - 1 := by
  have := (stop.budget.getD (.ofNat (2 ^ 64 - 1))).toNat_lt
  rw [limit]
  omega

/-- The sum is only saturated where the budget is the smaller bound anyway. -/
theorem targetAt_eq (stop : Stop) (point : Nat) :
    stop.targetAt point = min (point + stop.extra.toNat) stop.limit := by
  have := stop.limit_le
  rw [targetAt]
  omega

section Chunks

variable {stop : Stop} {buf rest : Bytes} {point : Nat}

theorem matchEnd_eq_some (h : stop.Plain) :
    stop.matchEnd buf = some point ↔
      ∃ marker i, stop.condition = some (.marker marker) ∧ marker ≠ [] ∧
        first marker buf = some i ∧ i + marker.length = point := by
  unfold matchEnd Plain at *
  cases hcondition : stop.condition with
  | none => simp
  | some condition =>
    cases condition with
    | predicate holds => simp
    | marker marker =>
      rw [hcondition] at h
      simp [h]

theorem matchEnd_append (h : stop.Plain) (hend : stop.matchEnd buf = some point) :
    stop.matchEnd (buf ++ rest) = some point := by
  obtain ⟨marker, i, hcondition, hne, hfirst, hpoint⟩ := (matchEnd_eq_some h).mp hend
  exact (matchEnd_eq_some h).mpr ⟨marker, i, hcondition, hne, first_append hne hfirst, hpoint⟩

theorem matchEnd_of_append (h : stop.Plain) (hend : stop.matchEnd (buf ++ rest) = some point)
    (hle : point ≤ buf.length) : stop.matchEnd buf = some point := by
  obtain ⟨marker, i, hcondition, hne, hfirst, rfl⟩ := (matchEnd_eq_some h).mp hend
  exact (matchEnd_eq_some h).mpr
    ⟨marker, i, hcondition, hne, first_of_append hne hfirst hle, rfl⟩

theorem matchEnd_le (h : stop.Plain) (hend : stop.matchEnd buf = some point) :
    point ≤ buf.length := by
  obtain ⟨marker, i, -, hne, hfirst, rfl⟩ := (matchEnd_eq_some h).mp hend
  exact ((first_eq_some hne).mp hfirst).1.le hne

/-- Searching from where a match can reach into the new bytes is as good as from the start. -/
theorem matchPoint_eq (h : stop.Plain) (hnone : stop.matchEnd buf = none) :
    stop.matchPoint (buf ++ rest) buf.length = stop.matchEnd (buf ++ rest) := by
  unfold matchPoint matchEnd Plain at *
  cases hcondition : stop.condition with
  | none => rfl
  | some condition =>
    rw [hcondition] at h hnone
    cases condition with
    | predicate holds => exact absurd h id
    | marker marker =>
      have hstart : buf.length - (marker.length - 1) + (marker.length - 1) ≤ buf.length ∨
          buf.length - (marker.length - 1) = 0 := by omega
      simp only [find_eq_first _ h]
      rw [← first_drop h (Option.map_eq_none_iff.mp hnone) hstart, Option.map_map]
      rfl

theorem targetOf_of_none (hend : stop.matchEnd buf = none) : stop.targetOf buf = none := by
  rw [targetOf, hend]
  rfl

theorem targetOf_of_some (hend : stop.matchEnd buf = some point) :
    stop.targetOf buf = if point ≤ stop.limit then some (stop.targetAt point) else none := by
  rw [targetOf, hend]
  by_cases hle : point ≤ stop.limit <;> simp [Option.filter, hle]

/-- **The target of what has been read is kept up**, as long as the budget is not used up. -/
theorem retarget_targetOf (h : stop.Plain) (hlt : buf.length < stop.limit) :
    stop.retarget (buf ++ rest) buf.length (stop.targetOf buf) = stop.targetOf (buf ++ rest) := by
  cases hend : stop.matchEnd buf with
  | none =>
    rw [targetOf_of_none hend]
    simp only [retarget, matchPoint_eq h hend]
    cases hnext : stop.matchEnd (buf ++ rest) with
    | none => exact (targetOf_of_none hnext).symm
    | some point => exact (targetOf_of_some hnext).symm
  | some point =>
    have hle : point ≤ stop.limit := (matchEnd_le h hend).trans (le_of_lt hlt)
    rw [targetOf_of_some hend, targetOf_of_some (matchEnd_append h hend), if_pos hle]
    rfl

theorem answer_of_some {body : Bytes} (hend : stop.matchEnd body = some point)
    (hle : point ≤ stop.limit) :
    stop.answer body =
      ⟨body.take (min (stop.targetAt point) body.length), .matched,
        body.length < stop.targetAt point⟩ := by
  have hfilter : (some point).filter (fun e => decide (e ≤ stop.limit)) = some point := by
    simp [Option.filter, hle]
  simp only [answer, hend, hfilter, targetAt_eq]

theorem answer_of_unmatched {body : Bytes}
    (h : ∀ point, stop.matchEnd body = some point → ¬ point ≤ stop.limit) :
    stop.answer body =
      ⟨body.take (min stop.limit body.length),
        if stop.limit ≤ body.length then .budget else .endOfBody, body.length < stop.limit⟩ := by
  have hfilter : (stop.matchEnd body).filter (fun e => decide (e ≤ stop.limit)) = none := by
    rw [Option.filter_eq_none_iff]
    intro point hpoint
    simpa using h point hpoint
  simp only [answer, hfilter]

theorem targetOf_eq_some {target : Nat} :
    stop.targetOf buf = some target ↔
      ∃ point, stop.matchEnd buf = some point ∧ point ≤ stop.limit ∧
        stop.targetAt point = target := by
  cases hend : stop.matchEnd buf with
  | none => simp [targetOf_of_none hend]
  | some point =>
    rw [targetOf_of_some hend]
    by_cases hle : point ≤ stop.limit <;> simp [hle]

theorem answer_of_reached (h : stop.Plain) {part : ReadPart}
    (hpart : stop.reached buf (stop.targetOf buf) = some part) :
    part = stop.answer (buf ++ rest) := by
  have hlength : buf.length ≤ (buf ++ rest).length := by simp
  unfold reached at hpart
  split at hpart
  · rename_i target hsome
    obtain ⟨hsome, hle⟩ := Option.filter_eq_some_iff.mp hsome
    obtain ⟨point, hend, hlimit, rfl⟩ := targetOf_eq_some.mp hsome
    rw [decide_eq_true_eq] at hle
    cases hpart
    rw [answer_of_some (matchEnd_append h hend) hlimit, Nat.min_eq_left (hle.trans hlength),
      List.take_append_of_le_length hle, decide_eq_false (not_lt.mpr (hle.trans hlength))]
  · rename_i hnone
    split_ifs at hpart with hbudget
    cases hpart
    rw [answer_of_unmatched, Nat.min_eq_left (hbudget.trans hlength),
      List.take_append_of_le_length hbudget, if_pos (hbudget.trans hlength),
      decide_eq_false (not_lt.mpr (hbudget.trans hlength))]
    -- a match within the budget would have been found in what was read
    intro point hend hle
    have htarget := targetOf_eq_some.mpr
      ⟨point, matchEnd_of_append h hend (hle.trans hbudget), hle, rfl⟩
    rw [htarget, Option.filter_eq_none_iff] at hnone
    refine hnone _ rfl ?_
    rw [decide_eq_true_eq, targetAt_eq]
    omega

theorem answer_of_end (hnone : stop.reached buf (stop.targetOf buf) = none) :
    ⟨buf, if (stop.targetOf buf).isSome then .matched else .endOfBody, true⟩ =
      stop.answer buf := by
  unfold reached at hnone
  split at hnone
  · cases hnone
  · rename_i hfilter
    split_ifs at hnone with hbudget
    rw [Option.filter_eq_none_iff] at hfilter
    cases htarget : stop.targetOf buf with
    | none =>
      rw [answer_of_unmatched, Nat.min_eq_right (by omega), List.take_length, if_neg hbudget,
        decide_eq_true (not_le.mp hbudget)]
      · rfl
      · intro point hend hle
        rw [targetOf_eq_some.mpr ⟨point, hend, hle, rfl⟩] at htarget
        cases htarget
    | some target =>
      obtain ⟨point, hend, hle, rfl⟩ := targetOf_eq_some.mp htarget
      have hlt : buf.length < stop.targetAt point := by simpa using hfilter _ htarget
      rw [answer_of_some hend hle, Nat.min_eq_right (le_of_lt hlt), List.take_length,
        decide_eq_true hlt]
      rfl

end Chunks

theorem readLoop_eq_answer {E : Type*} {stop : Stop} (h : stop.Plain) (buf : Bytes)
    (chunks : List Bytes) :
    stop.readLoop buf (stop.targetOf buf) (chunks.map (Except.ok (ε := E))) =
      .ok (stop.answer (buf ++ chunks.flatten)) := by
  induction chunks generalizing buf with
  | nil =>
    rw [List.map_nil, List.flatten_nil, List.append_nil, readLoop]
    cases hreached : stop.reached buf (stop.targetOf buf) with
    | none => exact congrArg _ (answer_of_end hreached)
    | some part =>
      have hpart := @answer_of_reached _ _ [] h _ hreached
      rw [List.append_nil] at hpart
      rw [hpart]
  | cons chunk chunks ih =>
    rw [List.map_cons, readLoop]
    cases hreached : stop.reached buf (stop.targetOf buf) with
    | some part => rw [answer_of_reached h hreached]
    | none =>
      have hlt : buf.length < stop.limit := by
        by_contra hnot
        unfold reached at hreached
        split at hreached
        · cases hreached
        · rw [if_pos (not_lt.mp hnot)] at hreached
          cases hreached
      rw [List.flatten_cons, ← List.append_assoc]
      simp only [retarget_targetOf h hlt]
      exact ih (buf ++ chunk)

/-- **A read answers by the body as a whole.** -/
theorem read_eq_answer {E : Type*} (stop : Stop) (h : stop.Plain) (chunks : List Bytes) :
    stop.read (chunks.map (Except.ok (ε := E))) = .ok (stop.answer chunks.flatten) := by
  have htarget : stop.targetOf [] = none := by
    cases hend : stop.matchEnd [] with
    | none => exact targetOf_of_none hend
    | some point =>
      obtain ⟨marker, i, -, hne, hfirst, -⟩ := (matchEnd_eq_some h).mp hend
      have hle := ((first_eq_some hne).mp hfirst).1.le hne
      have hpos := List.length_pos_iff.mpr hne
      simp only [List.length_nil] at hle
      omega
  rw [read, ← htarget]
  exact readLoop_eq_answer h [] chunks

/-- **A read does not depend on how the body was split.** -/
theorem read_of_split {E : Type*} {stop : Stop} (h : stop.Plain) {chunks others : List Bytes}
    (hbody : chunks.flatten = others.flatten) :
    stop.read (chunks.map (Except.ok (ε := E))) = stop.read (others.map Except.ok) ∧
      stop.read (chunks.map (Except.ok (ε := E))) = .ok (stop.answer chunks.flatten) := by
  have hchunks := read_eq_answer (E := E) stop h chunks
  have hothers := read_eq_answer (E := E) stop h others
  exact ⟨by rw [hchunks, hothers, hbody], hchunks⟩

/-- Up to `<b>`, with one byte more, of at most ten. -/
def upToTag : Stop := ⟨some (.marker [60, 98, 62]), 1, some 10⟩

/-- A marker in two chunks, and in four with an empty one. -/
theorem read_tag :
    let chunks : List Bytes := [[97, 60, 98], [62, 99, 100]]
    let others : List Bytes := [[97, 60], [], [98, 62], [99, 100]]
    upToTag.read (chunks.map (Except.ok (ε := Unit))) = upToTag.read (others.map Except.ok) ∧
      upToTag.read (chunks.map (Except.ok (ε := Unit))) =
        .ok ⟨[97, 60, 98, 62, 99], .matched, false⟩ := by
  have hplain : upToTag.Plain := List.cons_ne_nil _ _
  have hanswer : upToTag.answer [97, 60, 98, 62, 99, 100] =
      ⟨[97, 60, 98, 62, 99], .matched, false⟩ := by decide +kernel
  have hread := read_of_split (E := Unit) hplain
    (rfl : ([[97, 60, 98], [62, 99, 100]] : List Bytes).flatten =
      ([[97, 60], [], [98, 62], [99, 100]] : List Bytes).flatten)
  exact ⟨hread.1, hread.2.trans (congrArg _ hanswer)⟩

end Stop

end Chromulate.Http
