import Chromulate.Header.Engine

/-!
# What the caller's headers change

`apply` for one hop and two sets of caller's headers. Under each name the answer depends on what
the caller has under that name only (`apply_congr`): what is there is kept, and otherwise the value
is computed. Whether `apply` fails depends on them too, since a value that cannot be encoded is not
missed when the caller has set another. But the engine never fails on a name it has had a value for
with the same options (`sound_of_apply`), so that taking such values away makes no request fail
(`exists_apply`).
-/

namespace Chromulate.Header

namespace HeaderEngine

variable {engine : HeaderEngine}

/-! ## Names the engine does not fail on -/

/-- No slot of a name fails, whatever the rest of the request. -/
def Sound (engine : HeaderEngine) (options : RequestOptions) (name : HeaderName) : Prop :=
  ∀ ctx slot, ctx.options = options → slot ∈ engine.orderFor ctx → slot.headerName = name →
    ∃ value, engine.slotValue slot ctx = .ok value

theorem sound_of_not_supplies {options : RequestOptions} {name : HeaderName}
    (h : supplies name = false) : engine.Sound options name := by
  intro ctx slot _ hmem hname
  rcases (classed_of_mem_orderFor hmem).apt with habsent | hsupplies
  · exact ⟨none, by rw [slotValue, habsent]⟩
  · rw [hname, h] at hsupplies
    cases hsupplies

theorem sound_host (options : RequestOptions) : engine.Sound options .host := by
  intro ctx slot _ hmem hname
  rcases classed_of_mem_orderFor hmem with habsent | hclass
  · exact ⟨none, by rw [slotValue, habsent]⟩
  · rw [hname] at hclass
    have hhost : slot.value = .dynamic .host := hclass
    exact ⟨ctx.hostValue, by rw [slotValue, hhost]; rfl⟩

theorem dynamicValue_ok {dynamic : DynamicValue} {ctx other : Ctx} {value : HeaderValue}
    (hoptions : other.options = ctx.options)
    (h : engine.dynamicValue dynamic ctx = .ok (some value)) :
    ∃ found, engine.dynamicValue dynamic other = .ok found := by
  cases dynamic with
  | accept =>
    have hsame : engine.acceptValue other = engine.acceptValue ctx := by
      unfold acceptValue
      rw [hoptions]
    refine ⟨some value, ?_⟩
    rw [← h]
    unfold dynamicValue
    rw [hsame]
  | hint hint =>
    simp only [dynamicValue] at h ⊢
    split at h
    · cases h
    · split at h
      · rename_i found hvalue
        by_cases hgranted : hint ∈ other.granted
        · exact ⟨some found, by simp [hgranted]⟩
        · exact ⟨none, by simp [hgranted]⟩
      · cases h
      · cases h
  | _ => exact ⟨_, rfl⟩

theorem sound_of_slotValue {options : RequestOptions} {ctx : Ctx} {slot : Slot}
    {value : HeaderValue} (hoptions : ctx.options = options) (hmem : slot ∈ engine.orderFor ctx)
    (h : engine.slotValue slot ctx = .ok (some value)) :
    engine.Sound options slot.headerName := by
  intro other entry hsame hentry hname
  rcases classed_of_mem_orderFor hentry with habsent | hclass
  · exact ⟨none, by rw [slotValue, habsent]⟩
  · -- the two slots have one value, since this one is not absent
    have hvalue : entry.value = slot.value := by
      rcases classed_of_mem_orderFor hmem with habsent | hclass'
      · rw [slotValue, habsent] at h
        cases h
      · rw [hclass, hclass', hname]
    unfold slotValue at h ⊢
    rw [hvalue]
    cases hcase : slot.value with
    | constant value => exact ⟨some value, rfl⟩
    | absent => exact ⟨none, rfl⟩
    | invalid value =>
      rw [hcase] at h
      cases h
    | dynamic dynamic =>
      rw [hcase] at h
      exact dynamicValue_ok (hsame.trans hoptions.symm) h

/-! ## Two requests for one hop -/

section

variable {crate : UrlCrate} {target : Target} {url : Url} {options : RequestOptions}
  {granted : Origin → List HighEntropyHint} {callers others : HeaderMap}
  {made again : HeaderMap × HeaderMap}

theorem options_of_ctxOf {ctx : Ctx} (h : engine.ctxOf crate target url options granted = .ok ctx) :
    ctx.options = options := by
  simp only [ctxOf, bind, Except.bind, pure, Except.pure] at h
  split at h
  · cases h
  split at h
  · cases h
  split at h
  · cases h
  split at h
  · cases h
  · cases h
    rfl

variable {name : HeaderName}

/-- Under a name only what the caller has under that name matters. -/
theorem apply_congr (h : engine.apply crate target callers url options granted = .ok made)
    (hagain : engine.apply crate target others url options granted = .ok again)
    (hsame : callers.getAll name = others.getAll name) :
    made.2.getAll name = again.2.getAll name := by
  obtain ⟨-, ctx, hctx, hwire⟩ := getAll_of_apply h name
  obtain ⟨-, ctx', hctx', hwire'⟩ := getAll_of_apply hagain name
  rw [hctx] at hctx'
  cases hctx'
  cases hfind : (engine.orderFor ctx).find? fun slot => slot.headerName = name with
  | none =>
    rw [hfind] at hwire hwire'
    exact (hwire.trans hsame).trans hwire'.symm
  | some slot =>
    rw [hfind] at hwire hwire'
    have hslot : slot.headerName = name := by simpa using List.find?_some hfind
    have hvalues : engine.slotValues ctx callers slot = engine.slotValues ctx others slot := by
      unfold slotValues
      rw [hslot, hsame]
    exact Except.ok.inj ((hwire.symm.trans hvalues).trans hwire')

/-- The engine does not fail on a name it has had a value for. -/
theorem sound_of_apply (h : engine.apply crate target callers url options granted = .ok made)
    (habsent : callers.getAll name = []) (hvalue : made.2.getAll name ≠ []) :
    engine.Sound options name := by
  rcases wire_cases h name with hsame | ⟨-, ctx, slot, found, hctx, hmem, rfl, hfound, hmade⟩
  · exact absurd (hsame.trans habsent) hvalue
  · cases found with
    | none => exact absurd hmade hvalue
    | some value => exact sound_of_slotValue (options_of_ctxOf hctx) hmem hfound

/-- The first loop of `apply` succeeds when the first slot of each name does. -/
theorem exists_emit {ctx : Ctx} {order : List Slot} {earlier : List HeaderName}
    {start : HeaderMap × HeaderMap}
    (h : ∀ name slot, name ∉ earlier →
      order.find? (fun slot => slot.headerName = name) = some slot →
      ∃ values, engine.slotValues ctx callers slot = .ok values) :
    ∃ made, engine.emit ctx callers earlier order start = .ok made := by
  induction order generalizing earlier start with
  | nil => exact ⟨start, rfl⟩
  | cons slot order ih =>
    have hrest : ∀ name entry, name ∉ slot.headerName :: earlier →
        order.find? (fun slot => slot.headerName = name) = some entry →
        ∃ values, engine.slotValues ctx callers entry = .ok values := by
      intro name entry hname hfind
      rw [List.mem_cons, not_or] at hname
      refine h name entry hname.2 ?_
      rw [List.find?_cons_of_neg (by simpa using Ne.symm hname.1)]
      exact hfind
    unfold emit
    split
    · exact ih hrest
    · rename_i hnew
      obtain ⟨values, hvalues⟩ := h slot.headerName slot hnew (by simp)
      rw [hvalues]
      exact ih hrest

/-- **Taking away what the engine does not fail on makes no request fail.** -/
theorem exists_apply (h : engine.apply crate target callers url options granted = .ok made)
    (hsound : ∀ name, others.getAll name = [] → callers.getAll name = [] ∨
      engine.Sound options name) :
    ∃ again, engine.apply crate target others url options granted = .ok again := by
  unfold apply at h ⊢
  split at h
  · cases h
  · rename_i ctx hctx
    dsimp only at h ⊢
    split at h
    · cases h
    · rename_i headers result hemit
      have hslots : ∀ name slot, name ∉ ([] : List HeaderName) →
          (engine.orderFor ctx).find? (fun slot => slot.headerName = name) = some slot →
          ∃ values, engine.slotValues ctx others slot = .ok values := by
        intro name slot _ hfind
        have hslot : slot.headerName = name := by simpa using List.find?_some hfind
        cases hothers : others.getAll name with
        | cons first extra =>
          exact ⟨first :: extra, by simp only [slotValues, hslot, hothers]⟩
        | nil =>
          rcases hsound name hothers with hcallers | hname
          · have hfirst := emit_of_notMem_earlier name List.not_mem_nil rfl rfl hemit
            rw [hfind] at hfirst
            obtain ⟨values, hvalues, -⟩ := hfirst
            refine ⟨values, ?_⟩
            rw [← hvalues]
            simp only [slotValues, hslot, hothers, hcallers]
          · obtain ⟨value, hvalue⟩ := hname ctx slot (options_of_ctxOf hctx)
              (List.mem_of_find?_eq_some hfind) hslot
            refine ⟨value.toList, ?_⟩
            simp only [slotValues, hslot, hothers, hvalue]
            rfl
      obtain ⟨emitted, hemitted⟩ := exists_emit hslots
      rw [hemitted]
      exact ⟨_, rfl⟩

/-- **Applying the engine to what it has made changes nothing**, under any name: not the values and
not whether it fails. -/
theorem apply_apply (engine : HeaderEngine) (crate : UrlCrate) (target : Target)
    (callers : HeaderMap) (url : Url) (options : RequestOptions)
    (granted : Origin → List HighEntropyHint) :
    (engine.apply crate target callers url options granted >>= fun made =>
        (engine.apply crate target made.1 url options granted).map fun again => again.2.getAll) =
      (engine.apply crate target callers url options granted).map fun made => made.2.getAll := by
  cases h : engine.apply crate target callers url options granted with
  | error error => rfl
  | ok made =>
    have hkept : ∀ name, made.1.getAll name = [] → callers.getAll name = [] := by
      intro name hnone
      by_contra hpresent
      rw [(getAll_of_apply h name).1, apply_of_present h hpresent] at hnone
      exact hpresent hnone
    obtain ⟨again, hagain⟩ := exists_apply h fun name hnone => Or.inl (hkept name hnone)
    have hsame : again.2.getAll = made.2.getAll := by
      funext name
      by_cases hnone : made.1.getAll name = []
      · exact (apply_congr h hagain ((hkept name hnone).trans hnone.symm)).symm
      · exact (apply_of_present hagain hnone).trans (getAll_of_apply h name).1
    simp [bind, Except.bind, Except.map, hagain, hsame]

end

end HeaderEngine

end Chromulate.Header
