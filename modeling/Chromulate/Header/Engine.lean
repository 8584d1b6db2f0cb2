import Chromulate.Core.Request
import Chromulate.Lib.Ip
import Chromulate.Lib.PublicSuffix
import Chromulate.Lib.Table

/-!
# The header engine

`chromulate-header` and what it reads of `chromulate-profile`: from a captured browser profile and
a request, the ordered list of headers that goes on the wire. The answer of the `Accept-CH` store
is an argument.

The caller's headers win over the profile's, in the profile's place. Of a name for which the
engine has no value of its own, the wire carries what the caller set and nothing else
(`apply_of_not_supplies`).
-/

namespace Chromulate.Header

/-! ## The values of a request -/

inductive FetchSite where
  | none
  | sameOrigin
  | sameSite
  | crossSite
  deriving DecidableEq

def FetchSite.asStr : FetchSite → String
  | .none => "none"
  | .sameOrigin => "same-origin"
  | .sameSite => "same-site"
  | .crossSite => "cross-site"

/-- `registrable_domain`: an address stands for itself. -/
def registrableDomain (rules : List (PublicSuffix.Rule Str)) (host : Str) : Str :=
  if Ip.isLiteral host then host else PublicSuffix.registrable rules host

def schemefulSameSite (rules : List (PublicSuffix.Rule Str)) (a b : Origin) : Bool :=
  a.scheme = b.scheme && registrableDomain rules a.host = registrableDomain rules b.host

def FetchSite.compute (rules : List (PublicSuffix.Rule Str)) (initiator : Option Origin)
    (target : Origin) : FetchSite :=
  match initiator with
  | Option.none => .none
  | some initiator =>
    if initiator = target then .sameOrigin
    else if schemefulSameSite rules initiator target then .sameSite
    else .crossSite

/-- `accept_fallback`: documents have the profile's own value. -/
def acceptFallback : FetchDest → Option String
  | .document | .iframe => none
  | .style => some "text/css,*/*;q=0.1"
  | .image => some "image/avif,image/webp,image/apng,image/svg+xml,*/*;q=0.8"
  | .script | .font | .empty => some "*/*"

def priorityFor : FetchDest → String
  | .document | .iframe => "u=0, i"
  | .style | .font => "u=0"
  | .script => "u=1"
  | .image | .empty => "u=3"

inductive HighEntropyHint where
  | platformVersion
  | arch
  | bitness
  | fullVersionList
  | model
  deriving DecidableEq

def HighEntropyHint.allInEmitOrder : List HighEntropyHint :=
  [.platformVersion, .arch, .bitness, .model, .fullVersionList]

def HighEntropyHint.headerName : HighEntropyHint → HeaderName
  | .platformVersion => ⟨"sec-ch-ua-platform-version".toList, by decide⟩
  | .arch => ⟨"sec-ch-ua-arch".toList, by decide⟩
  | .bitness => ⟨"sec-ch-ua-bitness".toList, by decide⟩
  | .fullVersionList => ⟨"sec-ch-ua-full-version-list".toList, by decide⟩
  | .model => ⟨"sec-ch-ua-model".toList, by decide⟩

structure HighEntropyHints where
  platformVersion : Option Str := none
  arch : Option Str := none
  bitness : Option Str := none
  fullVersionList : Option Str := none
  model : Option Str := none

def HighEntropyHints.valueFor (hints : HighEntropyHints) : HighEntropyHint → Option Str
  | .platformVersion => hints.platformVersion
  | .arch => hints.arch
  | .bitness => hints.bitness
  | .fullVersionList => hints.fullVersionList
  | .model => hints.model

/-! ## The profile -/

inductive Platform where
  | macOs
  | windows
  | linux
  | android
  | ios
  | other (name : Str)
  deriving DecidableEq

def Platform.clientHint : Platform → Str
  | .macOs => "macOS".toList
  | .windows => "Windows".toList
  | .linux => "Linux".toList
  | .android => "Android".toList
  | .ios => "iOS".toList
  | .other name => name

structure Brand where
  brand : Str
  version : Str

def renderBrandList (brands : List Brand) : Str :=
  Text.join ", ".toList (brands.map fun entry =>
    "\"".toList ++ entry.brand ++ "\";v=\"".toList ++ entry.version ++ "\"".toList)

structure HeaderOrder where
  navigate : List Str
  subresource : Option (List Str)

def HeaderOrder.subresourceOrNavigate (order : HeaderOrder) : List Str :=
  order.subresource.getD order.navigate

/-- `Profile`, as far as headers are built from it. -/
structure Profile where
  platform : Platform
  userAgent : Str
  clientHintBrands : List Brand
  accept : Str
  acceptLanguage : Str
  acceptEncoding : Str
  headerOrder : HeaderOrder
  observedHeaders : Table Str Str

def Profile.secChUa (profile : Profile) : Str := renderBrandList profile.clientHintBrands

def Profile.secChUaPlatform (profile : Profile) : Str :=
  "\"".toList ++ profile.platform.clientHint ++ "\"".toList

/-! ## Slots -/

inductive DynamicValue where
  | accept
  | secFetchSite
  | secFetchMode
  | secFetchDest
  | secFetchUser
  | upgradeInsecureRequests
  | priority
  | referer
  | origin
  | host
  | hint (hint : HighEntropyHint)
  deriving DecidableEq

inductive SlotValue where
  | constant (value : HeaderValue)
  | dynamic (dynamic : DynamicValue)
  | invalid (value : Str)
  | absent
  deriving DecidableEq

/-- `Slot`: a name of an order, as the capture spells it and as it is parsed. -/
structure Slot where
  name : Str
  headerName : HeaderName
  value : SlotValue
  deriving DecidableEq

inductive PreparedValue where
  | valid (value : HeaderValue)
  | invalid (value : Str)
  | missing

def constant (value : Str) : SlotValue :=
  match HeaderValue.fromStr value with
  | some encoded => .constant encoded
  | none => .invalid value

def preparedValue (value : Str) : PreparedValue :=
  match HeaderValue.fromStr value with
  | some encoded => .valid encoded
  | none => .invalid value

/-- `classify`: how a value is found for a name, by the capture's spelling. -/
def classify (name : Str) (profile : Profile) : SlotValue :=
  if name = "sec-ch-ua".toList then constant profile.secChUa
  else if name = "sec-ch-ua-mobile".toList then
    match profile.observedHeaders.lookup "sec-ch-ua-mobile".toList with
    | some value => constant value
    | none => .absent
  else if name = "sec-ch-ua-platform".toList then constant profile.secChUaPlatform
  else if name = "sec-ch-ua-platform-version".toList then .dynamic (.hint .platformVersion)
  else if name = "sec-ch-ua-arch".toList then .dynamic (.hint .arch)
  else if name = "sec-ch-ua-bitness".toList then .dynamic (.hint .bitness)
  else if name = "sec-ch-ua-full-version-list".toList then .dynamic (.hint .fullVersionList)
  else if name = "sec-ch-ua-model".toList then .dynamic (.hint .model)
  else if name = "upgrade-insecure-requests".toList then .dynamic .upgradeInsecureRequests
  else if name = "user-agent".toList then constant profile.userAgent
  else if name = "accept".toList then .dynamic .accept
  else if name = "sec-fetch-site".toList then .dynamic .secFetchSite
  else if name = "sec-fetch-mode".toList then .dynamic .secFetchMode
  else if name = "sec-fetch-user".toList then .dynamic .secFetchUser
  else if name = "sec-fetch-dest".toList then .dynamic .secFetchDest
  else if name = "referer".toList then .dynamic .referer
  else if name = "origin".toList then .dynamic .origin
  else if name = "accept-encoding".toList then constant profile.acceptEncoding
  else if name = "accept-language".toList then constant profile.acceptLanguage
  else if name = "priority".toList then .dynamic .priority
  else if name = "host".toList then .dynamic .host
  else .absent

/-- `slot`: nothing for what is no header name. -/
def slot (name : Str) (value : SlotValue) : Option Slot :=
  (HeaderName.fromBytes name).map fun headerName => ⟨name, headerName, value⟩

def planOf (order : List Str) (profile : Profile) : List Slot :=
  order.filterMap fun name => slot name (classify name profile)

def knownSlot (headerName : HeaderName) (dynamic : DynamicValue) : Slot :=
  ⟨headerName.text, headerName, .dynamic dynamic⟩

structure Prepared where
  navigate : List Slot
  subresource : List Slot
  host : Slot
  origin : Slot
  referer : Slot
  secFetchUser : Slot
  hints : List Slot
  documentAccept : PreparedValue
  hintValue : HighEntropyHint → PreparedValue

def Prepared.build (profile : Profile) (highEntropy : HighEntropyHints) : Prepared where
  navigate := planOf profile.headerOrder.navigate profile
  subresource := planOf profile.headerOrder.subresourceOrNavigate profile
  host := knownSlot .host .host
  origin := knownSlot ⟨"origin".toList, by decide⟩ .origin
  referer := knownSlot ⟨"referer".toList, by decide⟩ .referer
  secFetchUser := knownSlot ⟨"sec-fetch-user".toList, by decide⟩ .secFetchUser
  hints := HighEntropyHint.allInEmitOrder.map fun hint => knownSlot hint.headerName (.hint hint)
  documentAccept := preparedValue profile.accept
  hintValue hint :=
    match highEntropy.valueFor hint with
    | some value => preparedValue value
    | none => .missing

/-- `HeaderEngine`, and the public suffix rules `sec-fetch-site` is computed with. -/
structure HeaderEngine where
  profile : Profile
  highEntropy : HighEntropyHints := {}
  rules : List (PublicSuffix.Rule Str) := []

def HeaderEngine.prepared (engine : HeaderEngine) : Prepared :=
  Prepared.build engine.profile engine.highEntropy

/-! ## The order -/

def contains (order : List Slot) (name : Str) : Bool := order.any fun entry => entry.name = name

def position (order : List Slot) (anchor : Str) : Option Nat :=
  order.findIdx? fun held => held.name = anchor

def insertBefore (order : List Slot) (anchor : Str) (entry : Slot) : List Slot :=
  if contains order entry.name then order
  else order.insertIdx ((position order anchor).getD order.length) entry

def insertAfter (order : List Slot) (anchor : Str) (entry : Slot) : List Slot :=
  if contains order entry.name then order
  else order.insertIdx (((position order anchor).map (· + 1)).getD order.length) entry

/-- One turn of the loop of `build_order` over the hints: the order, and how many have gone in. -/
def insertHint (granted : List HighEntropyHint) (anchor : Option Nat) (state : List Slot × Nat)
    (hintSlot : Slot) : List Slot × Nat :=
  match hintSlot.value with
  | .dynamic (.hint hint) =>
    if !granted.contains hint || contains state.1 hintSlot.name then state
    else
      match anchor with
      | some anchor => (state.1.insertIdx (anchor + 1 + state.2) hintSlot, state.2 + 1)
      | none => (state.1 ++ [hintSlot], state.2)
  | _ => state

/-- The hints join the ones the profile sends anyway. -/
def insertHints (order hints : List Slot) (granted : List HighEntropyHint) : List Slot :=
  let anchor := position order "sec-ch-ua-platform".toList
  (hints.foldl (insertHint granted anchor) (order, 0)).1

def buildOrder (base : List Slot) (prepared : Prepared)
    (needsHost needsOrigin needsReferer userActivated : Bool)
    (granted : List HighEntropyHint) : List Slot :=
  let order := if needsHost && !contains base "host".toList then prepared.host :: base else base
  let order := if granted.isEmpty then order else insertHints order prepared.hints granted
  let order :=
    if needsOrigin then insertBefore order "sec-fetch-site".toList prepared.origin else order
  let order :=
    if userActivated then insertBefore order "sec-fetch-dest".toList prepared.secFetchUser
    else order
  if needsReferer then insertAfter order "sec-fetch-dest".toList prepared.referer else order

/-! ## Applying it to a request -/

structure Ctx where
  options : RequestOptions
  fetchSite : FetchSite
  referer : Option HeaderValue
  originHeader : Option HeaderValue
  hostValue : Option HeaderValue
  userActivated : Bool
  granted : List HighEntropyHint

def needsHost : Version → Bool
  | .http09 | .http10 | .http11 => true
  | .http2 | .http3 => false

def hostHeaderValue (url : Url) : Option Str :=
  url.host.map fun host =>
    match url.port with
    | some port => host ++ ":".toList ++ (toString port).toList
    | none => host

def originHeaderValue (mode : FetchMode) (method : Method) (initiator : Option Origin)
    (target : Origin) : Option Str :=
  match initiator with
  | none => none
  | some initiator =>
    let writes : Bool := method ≠ .get ∧ method ≠ .head
    let needed := match mode with
      | .navigate => writes
      | _ => writes || initiator ≠ target
    if needed then some initiator.asciiSerialization else none

/-- `request_value` of a value that may be absent. -/
def requestValue (name : String) : Option Str → Except Error (Option HeaderValue)
  | none => .ok none
  | some value =>
    match HeaderValue.fromStr value with
    | some encoded => .ok (some encoded)
    | none =>
      .error (.config ("the computed value for header `".toList ++ name.toList ++
        "` is not a valid HTTP header value".toList))

/-- What `apply` reads of the request beside its headers. -/
structure Target where
  method : Method
  version : Version
  userActivated : Bool

namespace HeaderEngine

variable (engine : HeaderEngine)

/-- The first half of `apply`: what the request's values are computed from. -/
def ctxOf (crate : UrlCrate) (target : Target) (url : Url) (options : RequestOptions)
    (granted : Origin → List HighEntropyHint) : Except Error Ctx := do
  let origin ← Origin.of crate url
  let originHeader ← requestValue "origin"
    (originHeaderValue options.mode target.method options.initiator origin)
  let referer ← requestValue "referer" (options.referrer.bind fun source =>
    referrerFor crate source url)
  let hostValue ← requestValue "host"
    (if needsHost target.version then hostHeaderValue url else none)
  pure
    { options := options
      fetchSite := FetchSite.compute engine.rules options.initiator origin
      referer := referer
      originHeader := originHeader
      hostValue := hostValue
      userActivated := target.userActivated
      granted := granted origin }

def acceptValue (ctx : Ctx) : Except Error HeaderValue :=
  match acceptFallback ctx.options.dest with
  | some fallback => .ok (.fromStatic fallback)
  | none =>
    match engine.prepared.documentAccept with
    | .valid value => .ok value
    | .invalid value => .error (.invalidValue "accept".toList value)
    | .missing => .error (.invalidValue "accept".toList [])

def dynamicValue (dynamic : DynamicValue) (ctx : Ctx) : Except Error (Option HeaderValue) :=
  match dynamic with
  | .accept => (engine.acceptValue ctx).map some
  | .secFetchSite => .ok (some (.fromStatic ctx.fetchSite.asStr))
  | .secFetchMode => .ok (some (.fromStatic ctx.options.mode.asStr))
  | .secFetchDest => .ok (some (.fromStatic ctx.options.dest.asStr))
  | .secFetchUser => .ok (if ctx.userActivated then some (.fromStatic "?1") else none)
  | .upgradeInsecureRequests =>
    .ok (if ctx.options.mode = .navigate then some (.fromStatic "1") else none)
  | .priority => .ok (some (.fromStatic (priorityFor ctx.options.dest)))
  | .referer => .ok ctx.referer
  | .origin => .ok ctx.originHeader
  | .host => .ok ctx.hostValue
  | .hint hint =>
    if !ctx.granted.contains hint then .ok none
    else
      match engine.prepared.hintValue hint with
      | .valid value => .ok (some value)
      | .invalid value => .error (.invalidValue hint.headerName.text value)
      | .missing => .ok none

def slotValue (slot : Slot) (ctx : Ctx) : Except Error (Option HeaderValue) :=
  match slot.value with
  | .constant value => .ok (some value)
  | .absent => .ok none
  | .invalid value => .error (.invalidValue slot.name value)
  | .dynamic dynamic => engine.dynamicValue dynamic ctx

/-- What a slot puts on the wire: every value of the caller's, or else the engine's own. -/
def slotValues (ctx : Ctx) (callerHeaders : HeaderMap) (slot : Slot) :
    Except Error (List HeaderValue) :=
  match callerHeaders.getAll slot.headerName with
  | first :: extra => .ok (first :: extra)
  | [] => (engine.slotValue slot ctx).map Option.toList

/-- A request's own map with the values of one slot: the first replaces, the others join it. -/
def putAll (headers : HeaderMap) (name : HeaderName) : List HeaderValue → HeaderMap
  | [] => headers
  | first :: extra =>
    extra.foldl (fun headers value => headers.append name value) (headers.insert name first)

/-- The first loop of `apply`: the request's map and the wire order so far. A name that has had
its slot is passed over. -/
def emit (ctx : Ctx) (callerHeaders : HeaderMap) :
    List HeaderName → List Slot → HeaderMap × HeaderMap → Except Error (HeaderMap × HeaderMap)
  | _, [], made => .ok made
  | earlier, slot :: order, made =>
    if slot.headerName ∈ earlier then
      emit ctx callerHeaders (slot.headerName :: earlier) order made
    else
      match engine.slotValues ctx callerHeaders slot with
      | .error error => .error error
      | .ok values =>
        emit ctx callerHeaders (slot.headerName :: earlier) order
          (putAll made.1 slot.headerName values,
            made.2 ++ values.map fun value => (slot.headerName, value))

/-- The second loop of `apply`: what the caller set under names the order does not list. -/
def leftover (order : List Slot) (callerHeaders : HeaderMap) : HeaderMap :=
  callerHeaders.iter.filter fun field => !order.any fun slot => slot.headerName = field.1

/-- The order of a request. -/
def orderFor (ctx : Ctx) : List Slot :=
  let prepared := engine.prepared
  let base := if ctx.options.mode = .navigate then prepared.navigate else prepared.subresource
  buildOrder base prepared ctx.hostValue.isSome ctx.originHeader.isSome ctx.referer.isSome
    ctx.userActivated ctx.granted

/-- `HeaderEngine::apply`: the request's new headers, and the wire order. -/
def apply (crate : UrlCrate) (target : Target) (callerHeaders : HeaderMap) (url : Url)
    (options : RequestOptions) (granted : Origin → List HighEntropyHint) :
    Except Error (HeaderMap × HeaderMap) :=
  match engine.ctxOf crate target url options granted with
  | .error error => .error error
  | .ok ctx =>
    let order := engine.orderFor ctx
    match engine.emit ctx callerHeaders [] order ([], []) with
    | .error error => .error error
    | .ok (headers, result) =>
      let rest := leftover order callerHeaders
      .ok (rest.foldl (fun headers field => headers.append field.1 field.2) headers,
        result ++ rest)

end HeaderEngine

/-! ## Which names the engine has values for -/

/-- The names `classify` knows. -/
def suppliedNames : List Str :=
  ["sec-ch-ua", "sec-ch-ua-mobile", "sec-ch-ua-platform", "sec-ch-ua-platform-version",
    "sec-ch-ua-arch", "sec-ch-ua-bitness", "sec-ch-ua-full-version-list", "sec-ch-ua-model",
    "upgrade-insecure-requests", "user-agent", "accept", "sec-fetch-site", "sec-fetch-mode",
    "sec-fetch-user", "sec-fetch-dest", "referer", "origin", "accept-encoding", "accept-language",
    "priority", "host"].map String.toList

/-- Whether the engine may put a value of its own under a name. -/
def supplies (name : HeaderName) : Bool := suppliedNames.contains name.text

/-- A slot the engine has no value for, or the one its name stands for. -/
def Slot.Classed (slot : Slot) (profile : Profile) : Prop :=
  slot.value = .absent ∨ slot.value = classify slot.headerName.text profile

theorem classify_eq_absent {name : Str} (h : name ∉ suppliedNames) (profile : Profile) :
    classify name profile = .absent := by
  simp only [suppliedNames, List.map_cons, List.map_nil, List.mem_cons, List.not_mem_nil, or_false,
    not_or] at h
  unfold classify
  simp only [h, if_false]

theorem lower_of_mem_suppliedNames {name : Str} (h : name ∈ suppliedNames) :
    Text.toAsciiLowercase name = name := by
  revert name
  decide +kernel

variable {entry s : Slot} {order : List Slot} {granted : List HighEntropyHint}

theorem classed_of_mem_planOf {order : List Str} {profile : Profile}
    (h : entry ∈ planOf order profile) : entry.Classed profile := by
  obtain ⟨name, -, hslot⟩ := List.mem_filterMap.mp h
  obtain ⟨headerName, hname, rfl⟩ := Option.map_eq_some_iff.mp hslot
  by_cases hmem : name ∈ suppliedNames
  · right
    -- the names `classify` knows are in lower case, so parsing one changes nothing
    have htext : headerName.text = name := by
      unfold HeaderName.fromBytes at hname
      split at hname
      · cases hname
        exact lower_of_mem_suppliedNames hmem
      · cases hname
    show classify name profile = classify headerName.text profile
    rw [htext]
  · exact Or.inl (classify_eq_absent hmem profile)

/-- What is not absent is of a name that the engine supplies. -/
theorem Slot.Classed.apt {profile : Profile} (h : s.Classed profile) :
    s.value = .absent ∨ supplies s.headerName := by
  rw [supplies, List.contains_iff_mem]
  by_cases hmem : s.headerName.text ∈ suppliedNames
  · exact Or.inr hmem
  · exact Or.inl (h.elim id (·.trans (classify_eq_absent hmem profile)))

/-! ## What the order is made of -/

theorem mem_insertBefore {anchor : Str} (h : s ∈ insertBefore order anchor entry) :
    s = entry ∨ s ∈ order := by
  unfold insertBefore at h
  split at h
  · exact Or.inr h
  · exact List.eq_or_mem_of_mem_insertIdx h

theorem mem_insertAfter {anchor : Str} (h : s ∈ insertAfter order anchor entry) :
    s = entry ∨ s ∈ order := by
  unfold insertAfter at h
  split at h
  · exact Or.inr h
  · exact List.eq_or_mem_of_mem_insertIdx h

theorem mem_insertHint {anchor : Option Nat} {state : List Slot × Nat} {hintSlot : Slot}
    (h : s ∈ (insertHint granted anchor state hintSlot).1) : s = hintSlot ∨ s ∈ state.1 := by
  unfold insertHint at h
  split at h
  · split at h
    · exact Or.inr h
    · split at h
      · exact List.eq_or_mem_of_mem_insertIdx h
      · rcases List.mem_append.mp h with hold | hnew
        · exact Or.inr hold
        · exact Or.inl (List.mem_singleton.mp hnew)
  · exact Or.inr h

theorem mem_insertHints {hints : List Slot} (h : s ∈ insertHints order hints granted) :
    s ∈ hints ∨ s ∈ order := by
  unfold insertHints at h
  generalize position order "sec-ch-ua-platform".toList = anchor at h
  -- over the loop, with the order as far as it has come
  have hloop : ∀ (hints : List Slot) (state : List Slot × Nat),
      s ∈ (hints.foldl (insertHint granted anchor) state).1 → s ∈ hints ∨ s ∈ state.1 := by
    intro hints
    induction hints with
    | nil => exact fun state h => Or.inr h
    | cons hintSlot hints ih =>
      intro state h
      rcases ih _ h with hmem | hmem
      · exact Or.inl (List.mem_cons_of_mem _ hmem)
      · rcases mem_insertHint hmem with rfl | hold
        · exact Or.inl List.mem_cons_self
        · exact Or.inr hold
  exact hloop hints (order, 0) h

/-- A stage of `build_order` that may be skipped. -/
theorem mem_stage {c : Prop} [Decidable c] {changed : List Slot} {new : Prop}
    (h : s ∈ if c then changed else order) (hchanged : s ∈ changed → new ∨ s ∈ order) :
    new ∨ s ∈ order := by
  split at h
  · exact hchanged h
  · exact Or.inr h

/-- Everything in an order is the profile's, or one of the slots the engine puts in itself. -/
theorem mem_buildOrder {base : List Slot} {prepared : Prepared}
    {needsHost needsOrigin needsReferer userActivated : Bool}
    (h : s ∈ buildOrder base prepared needsHost needsOrigin needsReferer userActivated granted) :
    s ∈ base ∨ s ∈ prepared.hints ∨
      s ∈ [prepared.host, prepared.origin, prepared.referer, prepared.secFetchUser] := by
  dsimp only [buildOrder] at h
  simp only [List.mem_cons, List.not_mem_nil, or_false]
  -- from the last insertion back to the first
  rcases mem_stage h mem_insertAfter with heq | h
  · tauto
  rcases mem_stage h mem_insertBefore with heq | h
  · tauto
  rcases mem_stage h mem_insertBefore with heq | h
  · tauto
  rw [← ite_not] at h
  rcases mem_stage h mem_insertHints with hmem | h
  · tauto
  rcases mem_stage h List.mem_cons.mp with heq | h
  · tauto
  · exact Or.inl h

theorem classed_of_mem_orderFor {engine : HeaderEngine} {ctx : Ctx}
    (h : s ∈ engine.orderFor ctx) : s.Classed engine.profile := by
  rcases mem_buildOrder h with hbase | hhint | hown
  · split at hbase <;> exact classed_of_mem_planOf hbase
  · obtain ⟨hint, -, rfl⟩ := List.mem_map.mp hhint
    exact Or.inr (by cases hint <;> rfl)
  · simp only [List.mem_cons, List.not_mem_nil, or_false] at hown
    rcases hown with rfl | rfl | rfl | rfl <;> exact Or.inr rfl

/-! ## What reaches the wire -/

namespace HeaderEngine

variable {engine : HeaderEngine}

theorem getAll_putAll (headers : HeaderMap) (name other : HeaderName) (values : List HeaderValue) :
    (putAll headers name values).getAll other =
      if other = name ∧ values ≠ [] then values else headers.getAll other := by
  cases values with
  | nil => simp [putAll]
  | cons first extra =>
    have happend : ∀ (extra : List HeaderValue) (headers : HeaderMap),
        HeaderMap.getAll (extra.foldl (fun headers value => headers.append name value) headers)
          other = headers.getAll other ++ if other = name then extra else [] := by
      intro extra
      induction extra with
      | nil => simp
      | cons value extra ih =>
        intro headers
        rw [List.foldl_cons, ih, HeaderMap.getAll_append]
        split_ifs <;> simp
    rw [putAll, happend, HeaderMap.getAll_insert]
    by_cases h : other = name
    · simp [h]
    · simp [h]

variable {callerHeaders : HeaderMap} {made : HeaderMap × HeaderMap}

/-- A name that has had its slot is not touched again. -/
theorem emit_of_mem_earlier {ctx : Ctx} {name : HeaderName} {order : List Slot}
    {earlier : List HeaderName} {after : HeaderMap × HeaderMap} (hname : name ∈ earlier)
    (h : engine.emit ctx callerHeaders earlier order made = .ok after) :
    after.1.getAll name = made.1.getAll name ∧ after.2.getAll name = made.2.getAll name := by
  induction order generalizing earlier made with
  | nil =>
    cases h
    exact ⟨rfl, rfl⟩
  | cons slot order ih =>
    unfold emit at h
    split at h
    · exact ih (List.mem_cons_of_mem _ hname) h
    · rename_i hnew
      have hne : name ≠ slot.headerName := fun heq => hnew (heq ▸ hname)
      split at h
      · cases h
      · obtain ⟨hmap, hlist⟩ := ih (List.mem_cons_of_mem _ hname) h
        refine ⟨hmap.trans ?_, hlist.trans ?_⟩
        · rw [getAll_putAll, if_neg fun hand => hne hand.1]
        · rw [HeaderMap.getAll_concat, HeaderMap.getAll_map_pair, if_neg hne, List.append_nil]

/-- **A name's first slot decides what is put under it**, in the map and on the wire alike. -/
theorem emit_of_notMem_earlier {ctx : Ctx} (name : HeaderName) {order : List Slot}
    {earlier : List HeaderName} {after : HeaderMap × HeaderMap} (hname : name ∉ earlier)
    (hmap : made.1.getAll name = []) (hlist : made.2.getAll name = [])
    (h : engine.emit ctx callerHeaders earlier order made = .ok after) :
    match order.find? fun slot => slot.headerName = name with
    | none => after.1.getAll name = [] ∧ after.2.getAll name = []
    | some slot => ∃ values, engine.slotValues ctx callerHeaders slot = .ok values ∧
        after.1.getAll name = values ∧ after.2.getAll name = values := by
  induction order generalizing earlier made with
  | nil =>
    cases h
    exact ⟨hmap, hlist⟩
  | cons slot order ih =>
    unfold emit at h
    by_cases heq : slot.headerName = name
    · have hfind : (slot :: order).find? (fun slot => slot.headerName = name) = some slot := by
        simp [heq]
      rw [hfind]
      rw [if_neg (heq ▸ hname)] at h
      split at h
      · cases h
      · rename_i values hvalues
        have hmem : name ∈ slot.headerName :: earlier := heq ▸ List.mem_cons_self
        obtain ⟨hkept, hput⟩ := emit_of_mem_earlier hmem h
        refine ⟨values, hvalues, hkept.trans ?_, hput.trans ?_⟩
        · rw [getAll_putAll, hmap]
          cases values <;> simp [heq]
        · rw [HeaderMap.getAll_concat, HeaderMap.getAll_map_pair, hlist, if_pos heq.symm,
            List.nil_append]
    · have hfind : (slot :: order).find? (fun slot => slot.headerName = name) =
          order.find? fun slot => slot.headerName = name := by
        simp [heq]
      rw [hfind]
      have hnew : name ∉ slot.headerName :: earlier := by
        rw [List.mem_cons, not_or]
        exact ⟨Ne.symm heq, hname⟩
      split at h
      · exact ih hnew hmap hlist h
      · split at h
        · cases h
        · refine ih hnew ?_ ?_ h
          · rw [getAll_putAll, hmap, if_neg fun hand => heq hand.1.symm]
          · rw [HeaderMap.getAll_concat, HeaderMap.getAll_map_pair, hlist,
              if_neg (Ne.symm heq), List.append_nil]

theorem getAll_leftover (order : List Slot) (callerHeaders : HeaderMap) (name : HeaderName) :
    (leftover order callerHeaders).getAll name =
      if (order.find? fun slot => slot.headerName = name).isSome then []
      else callerHeaders.getAll name := by
  rw [leftover, HeaderMap.getAll_filter fun n => !order.any fun slot => slot.headerName = n,
    HeaderMap.getAll_iter, List.isSome_find?]
  cases order.any fun slot => slot.headerName = name <;> rfl

theorem getAll_foldl_append (rest headers : HeaderMap) (name : HeaderName) :
    HeaderMap.getAll (rest.foldl (fun headers field => headers.append field.1 field.2) headers) name
      = headers.getAll name ++ rest.getAll name := by
  induction rest generalizing headers with
  | nil => simp
  | cons field rest ih =>
    have hcons : HeaderMap.getAll (field :: rest) name =
        (if name = field.1 then [field.2] else []) ++ HeaderMap.getAll rest name :=
      (HeaderMap.getAll_concat [field] rest name).trans
        (congrArg (· ++ _) (HeaderMap.getAll_map_pair [field.2] field.1 name))
    rw [List.foldl_cons, ih, HeaderMap.getAll_append, List.append_assoc, hcons]

/-- **What is on the wire under a name**, and in the request's own map too: what its slot has, or
the caller's values when no slot is the name's. -/
theorem getAll_of_apply {crate : UrlCrate} {target : Target} {url : Url} {options : RequestOptions}
    {granted : Origin → List HighEntropyHint}
    (h : engine.apply crate target callerHeaders url options granted = .ok made)
    (name : HeaderName) :
    made.1.getAll name = made.2.getAll name ∧ ∃ ctx,
      engine.ctxOf crate target url options granted = .ok ctx ∧
      match (engine.orderFor ctx).find? fun slot => slot.headerName = name with
      | none => made.2.getAll name = callerHeaders.getAll name
      | some slot => engine.slotValues ctx callerHeaders slot = .ok (made.2.getAll name) := by
  unfold apply at h
  split at h
  · cases h
  · rename_i ctx hctx
    dsimp only at h
    split at h
    · cases h
    · rename_i headers result hemit
      cases h
      have hfirst := emit_of_notMem_earlier name List.not_mem_nil rfl rfl hemit
      rw [getAll_foldl_append, HeaderMap.getAll_concat, getAll_leftover]
      cases hfind : (engine.orderFor ctx).find? fun slot => slot.headerName = name with
      | none =>
        rw [hfind] at hfirst
        obtain ⟨hmap, hlist⟩ := hfirst
        rw [hmap, hlist]
        refine ⟨rfl, ctx, hctx, ?_⟩
        simp [hfind]
      | some slot =>
        rw [hfind] at hfirst
        obtain ⟨values, hvalues, hmap, hlist⟩ := hfirst
        rw [hmap, hlist]
        refine ⟨rfl, ctx, hctx, ?_⟩
        simp [hfind, hvalues]

section Wire

variable {crate : UrlCrate} {target : Target} {url : Url} {options : RequestOptions}
  {granted : Origin → List HighEntropyHint} {name : HeaderName}
  (h : engine.apply crate target callerHeaders url options granted = .ok made)

include h

/-- Under a name the wire carries what the caller set, or else what the slot of the name has. -/
theorem wire_cases (name : HeaderName) :
    made.2.getAll name = callerHeaders.getAll name ∨ callerHeaders.getAll name = [] ∧
      ∃ ctx slot value, engine.ctxOf crate target url options granted = .ok ctx ∧
        slot ∈ engine.orderFor ctx ∧ slot.headerName = name ∧
        engine.slotValue slot ctx = .ok value ∧ made.2.getAll name = value.toList := by
  obtain ⟨-, ctx, hctx, hwire⟩ := getAll_of_apply h name
  cases hfind : (engine.orderFor ctx).find? fun slot => slot.headerName = name with
  | none =>
    rw [hfind] at hwire
    exact Or.inl hwire
  | some slot =>
    have hslot : slot.headerName = name := by simpa using List.find?_some hfind
    simp only [hfind, slotValues, hslot] at hwire
    cases hvalues : callerHeaders.getAll name with
    | cons first extra =>
      rw [hvalues] at hwire
      exact Or.inl (Except.ok.inj hwire).symm
    | nil =>
      rw [hvalues] at hwire
      cases hvalue : engine.slotValue slot ctx with
      | error error =>
        rw [hvalue] at hwire
        cases hwire
      | ok value =>
        rw [hvalue] at hwire
        exact Or.inr ⟨rfl, ctx, slot, value, hctx, List.mem_of_find?_eq_some hfind, hslot, hvalue,
          (Except.ok.inj hwire).symm⟩

/-- **Of a name the engine does not supply, the wire carries what the caller set.** -/
theorem apply_of_not_supplies (hname : supplies name = false) :
    made.1.getAll name = callerHeaders.getAll name ∧
      made.2.getAll name = callerHeaders.getAll name := by
  suffices hlist : made.2.getAll name = callerHeaders.getAll name from
    ⟨(getAll_of_apply h name).1.trans hlist, hlist⟩
  rcases wire_cases h name with hsame | ⟨hnil, ctx, slot, value, -, hmem, rfl, hvalue, hmade⟩
  · exact hsame
  · have habsent : slot.value = .absent := by
      refine (classed_of_mem_orderFor hmem).apt.resolve_right ?_
      rw [hname]
      exact Bool.false_ne_true
    rw [slotValue, habsent] at hvalue
    cases hvalue
    rw [hmade, hnil]
    rfl

theorem apply_of_present (hpresent : callerHeaders.getAll name ≠ []) :
    made.2.getAll name = callerHeaders.getAll name :=
  (wire_cases h name).resolve_right fun hslot => hpresent hslot.1

theorem length_getAll_le (habsent : callerHeaders.getAll name = []) :
    (made.2.getAll name).length ≤ 1 := by
  rcases wire_cases h name with hsame | ⟨-, ctx, slot, value, -, -, -, -, hmade⟩
  · simp [hsame, habsent]
  · rw [hmade]
    cases value <;> simp

end Wire

end HeaderEngine

end Chromulate.Header
