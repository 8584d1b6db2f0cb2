import Chromulate.Header.Callers
import Chromulate.Lib.Firsts

/-!
# The list that goes on the wire

The list `apply` returns is grouped by name: first the names of the plan, in the order of their
first slots, and then what else the caller has set (`wire_grouped`). So the values of a name stand
together (`contiguous_of_grouped`), and no name comes back.
-/

namespace Chromulate.Header

/-! ## Lists that are grouped by name -/

/-- A list made of some names in turn, each with all its values. -/
def Grouped (names : List HeaderName) (list : HeaderMap) : Prop :=
  names.Nodup ∧ list = names.flatMap fun name => (list.getAll name).map fun value => (name, value)

variable {list : HeaderMap} {names : List HeaderName}

theorem Grouped.mem (h : Grouped names list) {name : HeaderName} (hname : list.getAll name ≠ []) :
    name ∈ names := by
  by_contra hnot
  have hnil := HeaderMap.getAll_flatMap h.1 (fun name => list.getAll name) name
  rw [← h.2, if_neg hnot] at hnil
  exact hname hnil

theorem Grouped.contiguous (h : Grouped names list) (name : HeaderName) :
    ∃ front back : HeaderMap,
      list = front ++ (list.getAll name).map (fun value => (name, value)) ++ back ∧
        (∀ field ∈ front, field.1 ≠ name) ∧ ∀ field ∈ back, field.1 ≠ name := by
  have hfield : ∀ part : List HeaderName, name ∉ part →
      ∀ field ∈ part.flatMap fun n => (list.getAll n).map fun value => (n, value),
        field.1 ≠ name := by
    intro part hpart field hmem heq
    obtain ⟨n, hn, hvalue⟩ := List.mem_flatMap.mp hmem
    obtain ⟨value, -, rfl⟩ := List.mem_map.mp hvalue
    exact hpart (heq ▸ hn)
  by_cases hmem : name ∈ names
  · obtain ⟨a, b, rfl⟩ := List.append_of_mem hmem
    have hnodup := h.1
    rw [List.nodup_middle, List.nodup_cons, List.mem_append, not_or] at hnodup
    refine ⟨a.flatMap fun n => (list.getAll n).map fun value => (n, value),
      b.flatMap fun n => (list.getAll n).map fun value => (n, value), ?_,
      hfield a hnodup.1.1, hfield b hnodup.1.2⟩
    conv_lhs => rw [h.2]
    simp
  · refine ⟨list, [], ?_, ?_, by simp⟩
    · have hnil : list.getAll name = [] := by
        by_contra hne
        exact hmem (h.mem hne)
      simp [hnil]
    · rw [h.2]
      exact hfield names hmem

/-- What holds of the names in turn, and of a name and itself, holds of the list. -/
theorem Grouped.pairwise (h : Grouped names list) {R : HeaderName → HeaderName → Prop}
    (hrefl : ∀ name, R name name) (hnames : names.Pairwise R) :
    list.Pairwise fun field later => R field.1 later.1 := by
  rw [h.2, List.pairwise_flatMap]
  constructor
  · intro name _
    rw [List.pairwise_map]
    exact List.pairwise_of_forall fun _ _ => hrefl name
  · refine hnames.imp ?_
    intro name later hR field hfield other hother
    obtain ⟨value, -, rfl⟩ := List.mem_map.mp hfield
    obtain ⟨value', -, rfl⟩ := List.mem_map.mp hother
    exact hR

namespace HeaderEngine

variable {engine : HeaderEngine}

/-- The names of a plan, each at its first slot. -/
def planNames (order : List Slot) : List HeaderName :=
  (firsts Slot.headerName [] order).map Slot.headerName

/-- The names the caller has set and the plan does not have. -/
def unplannedNames (order : List Slot) (callerHeaders : HeaderMap) : List HeaderName :=
  callerHeaders.names.filter fun name => !order.any fun slot => slot.headerName = name

variable {order : List Slot}

theorem emit_eq {ctx : Ctx} {callerHeaders : HeaderMap} {earlier : List HeaderName}
    {made after : HeaderMap × HeaderMap}
    (h : engine.emit ctx callerHeaders earlier order made = .ok after) :
    after.2 = made.2 ++ (firsts Slot.headerName earlier order).flatMap fun slot =>
      ((engine.slotValues ctx callerHeaders slot).toOption.getD []).map
        fun value => (slot.headerName, value) := by
  induction order generalizing earlier made with
  | nil =>
    cases h
    simp [firsts]
  | cons slot order ih =>
    rw [emit] at h
    rw [firsts]
    split_ifs at h ⊢ with hseen
    · exact ih h
    · cases hvalues : engine.slotValues ctx callerHeaders slot with
      | error error =>
        rw [hvalues] at h
        cases h
      | ok values =>
        rw [hvalues] at h
        rw [ih h]
        simp [hvalues, Except.toOption]

theorem leftover_eq (order : List Slot) (callerHeaders : HeaderMap) :
    leftover order callerHeaders = (unplannedNames order callerHeaders).flatMap fun name =>
      (callerHeaders.getAll name).map fun value => (name, value) := by
  rw [leftover, HeaderMap.iter, unplannedNames]
  induction callerHeaders.names with
  | nil => rfl
  | cons name names ih =>
    have hfield : ∀ field ∈ (callerHeaders.getAll name).map fun value => (name, value),
        field.1 = name := by
      intro field hmem
      obtain ⟨value, -, rfl⟩ := List.mem_map.mp hmem
      rfl
    rw [List.flatMap_cons, List.filter_append, ih, List.filter_cons]
    split_ifs with hkeep
    · rw [List.flatMap_cons, List.filter_eq_self.mpr]
      intro field hmem
      rw [hfield field hmem]
      exact hkeep
    · rw [List.filter_eq_nil_iff.mpr, List.nil_append]
      intro field hmem
      rw [hfield field hmem]
      exact hkeep

theorem mem_planNames {name : HeaderName} :
    name ∈ planNames order ↔ name ∈ order.map Slot.headerName := by
  rw [planNames, mem_map_firsts]
  exact and_iff_left List.not_mem_nil

theorem mem_unplannedNames {callerHeaders : HeaderMap} {name : HeaderName} :
    name ∈ unplannedNames order callerHeaders ↔
      callerHeaders.getAll name ≠ [] ∧ name ∉ order.map Slot.headerName := by
  have hnames : name ∈ callerHeaders.names ↔ callerHeaders.getAll name ≠ [] := by
    rw [HeaderMap.names, List.mem_reverse, List.mem_dedup, List.mem_reverse, HeaderMap.getAll, Ne,
      List.map_eq_nil_iff, List.filter_eq_nil_iff]
    simp
  rw [unplannedNames, List.mem_filter, hnames]
  simp

section Apply

variable {crate : UrlCrate} {target : Target} {callerHeaders : HeaderMap} {url : Url}
  {options : RequestOptions} {granted : Origin → List HighEntropyHint}
  {made : HeaderMap × HeaderMap}

/-- **The list is grouped by name**, the plan's names first. -/
theorem wire_grouped (h : engine.apply crate target callerHeaders url options granted = .ok made) :
    ∃ ctx, engine.ctxOf crate target url options granted = .ok ctx ∧
      Grouped (planNames (engine.orderFor ctx) ++
        unplannedNames (engine.orderFor ctx) callerHeaders) made.2 := by
  have hvalues := fun name => (getAll_of_apply h name).2
  unfold apply at h
  split at h
  · cases h
  · rename_i ctx hctx
    dsimp only at h
    split at h
    · cases h
    · rename_i headers result hemit
      cases h
      refine ⟨ctx, hctx, ?_, ?_⟩
      · rw [List.nodup_append]
        refine ⟨nodup_map_firsts, ?_, ?_⟩
        · exact (List.nodup_reverse.mpr (List.nodup_dedup _)).filter _
        · intro name hplan other hunplanned heq
          subst heq
          exact (mem_unplannedNames.mp hunplanned).2 (mem_planNames.mp hplan)
      · -- a first slot puts out what the list has under its name
        have hslot : ∀ slot ∈ firsts Slot.headerName [] (engine.orderFor ctx),
            (engine.slotValues ctx callerHeaders slot).toOption.getD [] =
              HeaderMap.getAll (result ++ leftover (engine.orderFor ctx) callerHeaders)
                slot.headerName := by
          intro slot hmem
          obtain ⟨ctx', hctx', hwire⟩ := hvalues slot.headerName
          rw [hctx] at hctx'
          cases hctx'
          rw [find?_of_mem_firsts hmem] at hwire
          rw [hwire]
          rfl
        have hrest : ∀ name ∈ unplannedNames (engine.orderFor ctx) callerHeaders,
            callerHeaders.getAll name =
              HeaderMap.getAll (result ++ leftover (engine.orderFor ctx) callerHeaders) name := by
          intro name hmem
          obtain ⟨ctx', hctx', hwire⟩ := hvalues name
          rw [hctx] at hctx'
          cases hctx'
          have hnone : (engine.orderFor ctx).find? (fun slot => slot.headerName = name) = none := by
            rw [List.find?_eq_none]
            intro slot hslot hname
            refine (mem_unplannedNames.mp hmem).2 (List.mem_map.mpr ⟨slot, hslot, ?_⟩)
            simpa using hname
          rw [hnone] at hwire
          exact hwire.symm
        rw [List.flatMap_append, planNames, List.flatMap_map]
        have hemitted : result = _ := emit_eq hemit
        rw [List.nil_append] at hemitted
        show result ++ _ = _
        conv_lhs => rw [hemitted, leftover_eq]
        congr 1
        · exact List.flatMap_congr fun slot hmem => by rw [hslot slot hmem]
        · exact List.flatMap_congr fun name hmem => by rw [hrest name hmem]

end Apply

theorem pairwise_names (order : List Slot) (callerHeaders : HeaderMap) :
    (planNames order ++ unplannedNames order callerHeaders).Pairwise fun name later =>
      later ∈ order.map Slot.headerName → name ∈ order.map Slot.headerName ∧
        (order.map Slot.headerName).idxOf name ≤ (order.map Slot.headerName).idxOf later := by
  rw [List.pairwise_append]
  refine ⟨?_, ?_, ?_⟩
  · rw [planNames, List.pairwise_map]
    refine pairwise_firsts.imp_of_mem ?_
    intro slot later hslot _ hlt _
    exact ⟨List.mem_map_of_mem (firsts_sublist.subset hslot), Nat.le_of_lt hlt⟩
  · refine List.Pairwise.imp_of_mem ?_ (List.pairwise_of_forall fun _ _ => trivial)
    intro name later _ hlater _ hplanned
    exact absurd hplanned (mem_unplannedNames.mp hlater).2
  · intro name _ later hlater hplanned
    exact absurd hplanned (mem_unplannedNames.mp hlater).2

/-- **The wire carries every header of the caller's exactly once.** The values of a name the caller
has set stand together, in the caller's order; every other name comes once at most; the names of the
plan come in the order of their first slots and before all others; and the request's own map holds
the same. -/
theorem wire_carries_callers (engine : HeaderEngine) (crate : UrlCrate) (target : Target)
    (callerHeaders : HeaderMap) (url : Url) (options : RequestOptions)
    (granted : Origin → List HighEntropyHint) (made : HeaderMap × HeaderMap)
    (h : engine.apply crate target callerHeaders url options granted = .ok made) :
    ∃ ctx, engine.ctxOf crate target url options granted = .ok ctx ∧
      (∀ name, callerHeaders.getAll name ≠ [] → ∃ front back : HeaderMap,
        made.2 = front ++ (callerHeaders.getAll name).map (fun value => (name, value)) ++ back ∧
          (∀ field ∈ front, field.1 ≠ name) ∧ ∀ field ∈ back, field.1 ≠ name) ∧
      (∀ name, callerHeaders.getAll name = [] → (made.2.getAll name).length ≤ 1) ∧
      (made.2.Pairwise fun field later =>
        later.1 ∈ (engine.orderFor ctx).map Slot.headerName →
          field.1 ∈ (engine.orderFor ctx).map Slot.headerName ∧
            ((engine.orderFor ctx).map Slot.headerName).idxOf field.1 ≤
              ((engine.orderFor ctx).map Slot.headerName).idxOf later.1) ∧
      ∀ name, made.1.getAll name = made.2.getAll name := by
  obtain ⟨ctx, hctx, hgrouped⟩ := wire_grouped h
  refine ⟨ctx, hctx, ?_, fun name habsent => length_getAll_le h habsent, ?_, ?_⟩
  · intro name hpresent
    rw [← apply_of_present h hpresent]
    exact hgrouped.contiguous name
  · exact hgrouped.pairwise (fun name hplanned => ⟨hplanned, Nat.le_refl _⟩)
      (pairwise_names (engine.orderFor ctx) callerHeaders)
  · exact fun name => (getAll_of_apply h name).1

/-! ### A small request -/

/-- A `url` crate that knows of no other URL than the one it is given. -/
def fixedUrl : UrlCrate where
  asStr url := url.upToQuery
  parse _ := .error []
  join _ _ := .error []
  setHttps url := some { url with scheme := "https".toList }
  clearPort url := url
  bare url := url.upToQuery
  parseUri _ := .error []
  displayUri _ := []
  setHttps_of_http _ _ _ := rfl
  scheme_setHttps url changed h := by
    cases h
    rfl
  scheme_clearPort _ := rfl

/-- An engine of a profile with the given order. -/
def ofOrder (navigate : List String) : HeaderEngine where
  profile :=
    { platform := .macOs
      userAgent := "Mozilla/5.0".toList
      clientHintBrands := []
      accept := "text/html".toList
      acceptLanguage := "en".toList
      acceptEncoding := "gzip".toList
      headerOrder := ⟨navigate.map String.toList, none⟩
      observedHeaders := ∅ }

/-- A name of the plan that the caller sets twice. -/
def tagName : HeaderName := ⟨"x-tag".toList, by decide⟩

/-- What the caller sets: the name of the plan, and one that the plan does not have between. -/
def tagged : HeaderMap :=
  [(tagName, .fromStatic "1"), (⟨"z".toList, by decide⟩, .fromStatic "2"),
    (tagName, .fromStatic "3")]

/-- A plan that repeats a name and has one that is none: both values of the caller's stand
together, in the caller's order. -/
theorem wire_carries_tagged :
    ∃ made, (ofOrder ["accept", "X-Tag", "accept", "no name", "user-agent"]).apply fixedUrl
        ⟨.get, .http11, false⟩ tagged (.plain "https" "a.test" "/") {} (fun _ => []) = .ok made ∧
      ∃ front back : HeaderMap,
        made.2 = front ++ [(tagName, .fromStatic "1"), (tagName, .fromStatic "3")] ++ back := by
  cases h : (ofOrder ["accept", "X-Tag", "accept", "no name", "user-agent"]).apply fixedUrl
      ⟨.get, .http11, false⟩ tagged (.plain "https" "a.test" "/") {} (fun _ => []) with
  | error error =>
    have hok : ((ofOrder ["accept", "X-Tag", "accept", "no name", "user-agent"]).apply fixedUrl
        ⟨.get, .http11, false⟩ tagged (.plain "https" "a.test" "/") {} (fun _ => [])).toOption ≠
          none := by decide +kernel
    rw [h] at hok
    exact absurd rfl hok
  | ok made =>
    obtain ⟨ctx, -, hcallers, -⟩ := wire_carries_callers _ _ _ _ _ _ _ made h
    obtain ⟨front, back, hmade, -⟩ := hcallers tagName (by decide)
    exact ⟨made, rfl, front, back, hmade⟩

end HeaderEngine

end Chromulate.Header
