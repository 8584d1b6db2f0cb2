import Chromulate.Header.Callers

/-!
# The `Host` header

An HTTP/1.1 request names its authority in `Host`. The header engine writes it in the place the
profile gives it, or first when the profile gives it none, unless the caller has set another. One
profile it is not written for: where the order lists `host` after the same name in another spelling,
the first of the two has the place and no value (`givesHost`).
-/

namespace Chromulate.Header

/-! ## Which slot is a name's -/

theorem find?_insertIdx {α : Type*} {p : α → Bool} {a : α} (h : p a = false) (l : List α)
    (n : Nat) :
    (l.insertIdx n a).find? p = l.find? p := by
  induction l generalizing n with
  | nil =>
    cases n with
    | zero => simp [h]
    | succ n => simp
  | cons b l ih =>
    cases n with
    | zero => simp [h]
    | succ n =>
      rw [List.insertIdx_succ_cons, List.find?_cons, List.find?_cons, ih]

section

variable {name : HeaderName} {order : List Slot} {entry : Slot} {anchor : Str}

theorem find?_insertBefore (h : entry.headerName ≠ name) :
    (insertBefore order anchor entry).find? (fun slot => slot.headerName = name) =
      order.find? fun slot => slot.headerName = name := by
  unfold insertBefore
  split
  · rfl
  · exact find?_insertIdx (by simpa using h) _ _

theorem find?_insertAfter (h : entry.headerName ≠ name) :
    (insertAfter order anchor entry).find? (fun slot => slot.headerName = name) =
      order.find? fun slot => slot.headerName = name := by
  unfold insertAfter
  split
  · rfl
  · exact find?_insertIdx (by simpa using h) _ _

theorem find?_insertHint {granted : List HighEntropyHint} {position : Option Nat}
    {state : List Slot × Nat} (h : entry.headerName ≠ name) :
    (insertHint granted position state entry).1.find? (fun slot => slot.headerName = name) =
      state.1.find? fun slot => slot.headerName = name := by
  unfold insertHint
  split
  · split
    · rfl
    · split
      · exact find?_insertIdx (by simpa using h) _ _
      · rw [List.find?_append, List.find?_cons_of_neg (by simpa using h), List.find?_nil,
          Option.or_none]
  · rfl

theorem find?_insertHints {hints : List Slot} {granted : List HighEntropyHint}
    (h : ∀ hint ∈ hints, hint.headerName ≠ name) :
    (insertHints order hints granted).find? (fun slot => slot.headerName = name) =
      order.find? fun slot => slot.headerName = name := by
  unfold insertHints
  generalize position order "sec-ch-ua-platform".toList = anchor
  -- over the loop, with the order as far as it has come
  have hloop : ∀ (hints : List Slot) (state : List Slot × Nat),
      (∀ hint ∈ hints, hint.headerName ≠ name) →
      (hints.foldl (insertHint granted anchor) state).1.find? (fun slot => slot.headerName = name) =
        state.1.find? fun slot => slot.headerName = name := by
    intro hints
    induction hints with
    | nil => exact fun state _ => rfl
    | cons hint hints ih =>
      intro state h
      rw [List.foldl_cons, ih _ fun other hother => h other (List.mem_cons_of_mem _ hother),
        find?_insertHint (h hint List.mem_cons_self)]
  exact hloop hints (order, 0) h

end

/-- A stage of `build_order` that may be skipped. -/
theorem find?_stage {c : Prop} [Decidable c] {order changed : List Slot} {p : Slot → Bool}
    (h : changed.find? p = order.find? p) :
    (if c then changed else order).find? p = order.find? p := by
  split
  · exact h
  · rfl

/-- What the engine puts into an order itself, `Host` aside, leaves the other names alone. -/
theorem find?_buildOrder {base : List Slot} {prepared : Prepared} {name : HeaderName}
    {needsHost needsOrigin needsReferer userActivated : Bool} {granted : List HighEntropyHint}
    (hhints : ∀ hint ∈ prepared.hints, hint.headerName ≠ name)
    (horigin : prepared.origin.headerName ≠ name) (hreferer : prepared.referer.headerName ≠ name)
    (huser : prepared.secFetchUser.headerName ≠ name) :
    (buildOrder base prepared needsHost needsOrigin needsReferer userActivated granted).find?
        (fun slot => slot.headerName = name) =
      (if needsHost && !contains base "host".toList then prepared.host :: base else base).find?
        fun slot => slot.headerName = name := by
  dsimp only [buildOrder]
  -- from the last insertion back to the first
  refine (find?_stage (find?_insertAfter hreferer)).trans ?_
  refine (find?_stage (find?_insertBefore huser)).trans ?_
  refine (find?_stage (find?_insertBefore horigin)).trans ?_
  rw [← ite_not]
  exact find?_stage (find?_insertHints hhints)

namespace HeaderEngine

variable {engine : HeaderEngine}

/-- The profile's order for a request. -/
def base (engine : HeaderEngine) (options : RequestOptions) : List Slot :=
  if options.mode = .navigate then engine.prepared.navigate else engine.prepared.subresource

/-- The place of `host`, if the profile gives it one, is not taken by another spelling. -/
def givesHost (engine : HeaderEngine) (options : RequestOptions) : Bool :=
  !contains (engine.base options) "host".toList ||
    ((engine.base options).find? fun slot => slot.headerName = .host).any fun slot =>
      slot.value = .dynamic .host

theorem find?_host_orderFor {ctx : Ctx} (h : ctx.hostValue.isSome) :
    (engine.orderFor ctx).find? (fun slot => slot.headerName = .host) =
      if contains (engine.base ctx.options) "host".toList then
        (engine.base ctx.options).find? fun slot => slot.headerName = .host
      else some engine.prepared.host := by
  have hhints : ∀ hint ∈ engine.prepared.hints, hint.headerName ≠ .host := by
    intro slot hslot
    obtain ⟨hint, -, rfl⟩ := List.mem_map.mp hslot
    cases hint <;> decide
  have horigin : engine.prepared.origin.headerName ≠ .host :=
    show HeaderName.mk "origin".toList (by decide) ≠ .host by decide
  have hreferer : engine.prepared.referer.headerName ≠ .host :=
    show HeaderName.mk "referer".toList (by decide) ≠ .host by decide
  have huser : engine.prepared.secFetchUser.headerName ≠ .host :=
    show HeaderName.mk "sec-fetch-user".toList (by decide) ≠ .host by decide
  refine (find?_buildOrder hhints horigin hreferer huser).trans ?_
  rw [h, Bool.true_and, ← base]
  cases hcontains : contains (engine.base ctx.options) "host".toList with
  | true => rfl
  | false => exact List.find?_cons_of_pos rfl

section

variable {crate : UrlCrate} {target : Target} {url : Url} {options : RequestOptions}
  {granted : Origin → List HighEntropyHint}

theorem hostValue_of_ctxOf {ctx : Ctx}
    (h : engine.ctxOf crate target url options granted = .ok ctx)
    (hversion : needsHost target.version) :
    ∃ text value, hostHeaderValue url = some text ∧ HeaderValue.fromStr text = some value ∧
      ctx.hostValue = some value := by
  simp only [ctxOf, bind, Except.bind, pure, Except.pure] at h
  split at h
  · cases h
  rename_i origin horigin
  split at h
  · cases h
  split at h
  · cases h
  split at h
  · cases h
  rename_i hostValue hhost
  cases h
  have htext : ∃ text, hostHeaderValue url = some text := by
    unfold Origin.of at horigin
    split at horigin
    · cases horigin
    · cases horigin
    · rename_i host _ hsome _
      rw [hostHeaderValue, hsome]
      exact ⟨_, rfl⟩
  obtain ⟨text, htext⟩ := htext
  rw [if_pos hversion, htext, requestValue] at hhost
  split at hhost
  · rename_i value hvalue
    cases hhost
    exact ⟨text, value, htext, hvalue, rfl⟩
  · cases hhost

/-- **What an HTTP/1.1 request has under `Host`** when the caller has set none. -/
theorem host_of_apply {callers : HeaderMap} {made : HeaderMap × HeaderMap}
    (h : engine.apply crate target callers url options granted = .ok made)
    (hversion : needsHost target.version) (habsent : callers.getAll .host = []) :
    ∃ text value, hostHeaderValue url = some text ∧ HeaderValue.fromStr text = some value ∧
      made.2.getAll .host = if engine.givesHost options then [value] else [] := by
  obtain ⟨-, ctx, hctx, hwire⟩ := getAll_of_apply h .host
  obtain ⟨text, value, htext, hvalue, hhost⟩ := hostValue_of_ctxOf hctx hversion
  refine ⟨text, value, htext, hvalue, ?_⟩
  rw [find?_host_orderFor (by rw [hhost]; rfl), options_of_ctxOf hctx] at hwire
  have hslot : ∀ slot : Slot, slot.headerName = .host → slot.value = .dynamic .host →
      engine.slotValues ctx callers slot = .ok [value] := by
    intro slot hname hdynamic
    simp only [slotValues, hname, habsent, slotValue, hdynamic, dynamicValue, hhost]
    rfl
  unfold givesHost
  cases hcontains : contains (engine.base options) "host".toList with
  | false =>
    rw [hcontains] at hwire
    have hmade := hslot engine.prepared.host rfl rfl
    simp only [Bool.false_eq_true, if_false] at hwire
    rw [hmade] at hwire
    simpa using (Except.ok.inj hwire).symm
  | true =>
    rw [hcontains, if_pos rfl] at hwire
    cases hfind : (engine.base options).find? fun slot => slot.headerName = .host with
    | none =>
      rw [hfind] at hwire
      simp [hwire, habsent]
    | some slot =>
      rw [hfind] at hwire
      have hname : slot.headerName = .host := by simpa using List.find?_some hfind
      by_cases hdynamic : slot.value = .dynamic .host
      · have hmade := hslot slot hname hdynamic
        simp only at hwire
        rw [hmade] at hwire
        simp [hdynamic, ← Except.ok.inj hwire]
      · have habsentSlot : slot.value = .absent := by
          have hmem := List.mem_of_find?_eq_some hfind
          have hclassed : slot.Classed engine.profile := by
            unfold base at hmem
            split at hmem <;> exact classed_of_mem_planOf hmem
          refine hclassed.resolve_right fun hclass => hdynamic ?_
          rw [hname] at hclass
          exact hclass
        have hmade : engine.slotValues ctx callers slot = .ok [] := by
          simp only [slotValues, hname, habsent, slotValue, habsentSlot]
          rfl
        simp only at hwire
        rw [hmade] at hwire
        simp [hdynamic, ← Except.ok.inj hwire]

end

end HeaderEngine

end Chromulate.Header
