import Chromulate.Cache.Exchange

/-!
# Where a cached answer comes from

An entry is made of a response whose body was read to its end, and may since have been refreshed
by `304`s; `Derives` says so, and names the exchanges. **`sound_run`** is the invariant: in every
run, whatever the store holds derives from exchanges that were entitled to make or refresh it,
and its fields would still pass the storage rules.

The storage rules read `Cache-Control` in the code's way. **`served_provenance`** states what that
means for the messages themselves: it holds for every run whose messages say `no-store` and
`private` in lines that are text and show no grant inside a quoted string only, and
**`unreadable_noStore_served`** is a run outside that, where a response that says `no-store` is
stored and served.
-/

namespace Chromulate.Cache

open HeaderMap

/-! ## Derivations -/

/-- An answered exchange, and the fields that were judged when it made or refreshed an entry. -/
structure Link where
  request : Request
  url : Url
  response : Response
  fields : HeaderMap

/-- `Derives xs e origin later`: the entry `e` is the response of `origin`, read to the end of
its body, refreshed by the `304`s of `later` in this order. -/
inductive Derives (xs : List Exchange) : CacheEntry → Link → List Link → Prop where
  | stored {request : Request} {url : Url} {response : Response} {front rest : List Frame}
      {body : Body} {names : List HeaderName}
      (hx : ⟨request, url, .reading response (front ++ .done :: rest) body⟩ ∈ xs)
      (hnames : varyNames response.headers = some names) (requestedAt receivedAt : SystemTime) :
      Derives xs ⟨response.status, response.version, stripHopByHop response.headers,
        dataOf front, Selector.of names request.headers, requestedAt, receivedAt⟩
        ⟨request, url, response, response.headers⟩ []
  | refreshed {e : CacheEntry} {origin : Link} {later : List Link} {request : Request} {url : Url}
      {response : Response} {frames : List Frame} {body : Body} (h : Derives xs e origin later)
      (hx : ⟨request, url, .reading response frames body⟩ ∈ xs)
      (hstatus : response.status = 304) (requestedAt receivedAt : SystemTime) :
      Derives xs (e.refreshed response.headers requestedAt receivedAt) origin
        (later ++ [⟨request, url, response,
          (e.refreshed response.headers requestedAt receivedAt).headers⟩])

theorem Exchange.Later.reading {request : Request} {url : Url} {answer : Response}
    {frames : List Frame} {body : Body} {y : Exchange}
    (h : Exchange.Later ⟨request, url, .reading answer frames body⟩ y) :
    ∃ more body', y = ⟨request, url, .reading answer (frames ++ more) body'⟩ := by
  obtain ⟨request', url', phase⟩ := y
  obtain ⟨rfl, rfl, hphase⟩ := h
  obtain ⟨_, body', hy, more, rfl⟩ := hphase answer frames body rfl
  exact ⟨more, body', by rw [← hy]⟩

theorem Derives.mono {xs ys : List Exchange} {e : CacheEntry} {origin : Link} {later : List Link}
    (hgrows : Grows xs ys) (h : Derives xs e origin later) : Derives ys e origin later := by
  induction h with
  | stored hx hnames requestedAt receivedAt =>
    obtain ⟨y, hy, hlater⟩ := hgrows _ hx
    obtain ⟨more, body', rfl⟩ := hlater.reading
    rw [List.append_assoc, List.cons_append] at hy
    exact .stored hy hnames requestedAt receivedAt
  | refreshed _ hx hstatus requestedAt receivedAt ih =>
    obtain ⟨y, hy, hlater⟩ := hgrows _ hx
    obtain ⟨more, body', rfl⟩ := hlater.reading
    exact .refreshed ih hy hstatus requestedAt receivedAt

/-! ## What is held -/

/-- The exchange was entitled to make or refresh an entry under `key`. -/
structure Proper (config : CacheConfig) (key : CacheKey) (link : Link) : Prop where
  method : link.request.method = .get
  key : CacheKey.new .get link.url = key
  noStore : (CacheControl.ofRequest link.request.headers).noStore = false
  authorized : config.storePrivate = false →
    containsKey link.request.headers .authorization → (CacheControl.of link.fields).isShareable

/-- An entry the store may hold under `key`. -/
structure Held (config : CacheConfig) (xs : List Exchange) (key : CacheKey) (e : CacheEntry)
    (origin : Link) (later : List Link) : Prop where
  derives : Derives xs e origin later
  proper : ∀ link ∈ origin :: later, Proper config key link
  noStore : (CacheControl.of e.headers).noStore = false
  setCookie : getAll e.headers .setCookie = []
  shared : config.storePrivate = false → (CacheControl.of e.headers).isPrivate = false
  /-- The `Vary` of the origin's response is what the selector was built from; the entry may
  since have lost the field, but not gained a name. -/
  selection : ∃ names current, varyNames origin.response.headers = some names ∧
    e.selector = Selector.of names origin.request.headers ∧
    varyNames e.headers = some current ∧ current ⊆ names ∧
    ∀ name ∈ names, name.text ∉ unselectable

theorem Held.mono {config : CacheConfig} {xs ys : List Exchange} {key : CacheKey} {e : CacheEntry}
    {origin : Link} {later : List Link} (hgrows : Grows xs ys)
    (h : Held config xs key e origin later) : Held config ys key e origin later :=
  { h with derives := h.derives.mono hgrows }

theorem of_stripHopByHop (headers : HeaderMap) :
    CacheControl.of (stripHopByHop headers) = {} ∨
      CacheControl.of (stripHopByHop headers) = CacheControl.of headers := by
  rcases getAll_stripHopByHop_cases headers .cacheControl with h | h
  · left
    rw [CacheControl.of, h]
    rfl
  · exact Or.inr (CacheControl.of_congr h)

variable {headers : HeaderMap}

theorem varyNames_stripHopByHop {names : List HeaderName} (h : varyNames headers = some names) :
    ∃ current, varyNames (stripHopByHop headers) = some current ∧ current ⊆ names := by
  rcases getAll_stripHopByHop_cases headers .vary with hs | hs
  · exact ⟨[], varyNames_of_nil hs, List.nil_subset _⟩
  · exact ⟨names, (varyNames_congr hs).trans h, List.Subset.refl _⟩

/-- A `304` that selects the same way leaves the `Vary` list as it was. -/
theorem varyNames_refreshed {e : CacheEntry} {notModified : HeaderMap} {names : List HeaderName}
    {requestedAt receivedAt : SystemTime} (h : varyNames e.headers = some names)
    (hsame : selectsTheSameWay e.headers notModified) :
    varyNames (e.refreshed notModified requestedAt receivedAt).headers = some names := by
  have hall := e.getAll_refreshed notModified requestedAt receivedAt .vary
  rw [replaces_vary] at hall
  unfold selectsTheSameWay at hsame
  by_cases hv : containsKey notModified .vary
  · rw [if_pos hv] at hall
    rw [varyNames_congr hall]
    simpa [hv, h] using hsame
  · rw [if_neg hv] at hall
    rw [varyNames_congr hall, h]

/-! ## The invariant -/

/-- A body that is being recorded: what it will commit, and that it is complete so far. -/
structure Recorded (config : CacheConfig) (request : Request) (url : Url) (response : Response)
    (frames : List Frame) (recording : Recording) (commit : Commit) : Prop where
  method : request.method = .get
  noStore : (CacheControl.ofRequest request.headers).noStore = false
  key : commit.key = CacheKey.new .get url
  buffered : recording.buffered = dataOf frames
  made : ∃ names, Kept config request.headers response.status response.headers
      (CacheControl.of response.headers) names ∧
    commit.status = response.status ∧ commit.version = response.version ∧
    commit.headers = stripHopByHop response.headers ∧
    commit.selector = Selector.of names request.headers

/-- Everything the cache has in hand is what it should be: the entries stored, the entries kept
aside for a revalidation, and the bodies being recorded. -/
structure Sound (env : Env) (w : World) : Prop where
  stored : ∀ key e, e ∈ w.cache.variantsAt env key →
    ∃ origin later, Held w.cache.config w.exchanges key e origin later
  pending : ∀ request url state, ⟨request, url, .pending (.store state)⟩ ∈ w.exchanges →
    Asked request url state ∧ ∀ e, state.revalidating = some e →
      ∃ origin later, Held w.cache.config w.exchanges state.key e origin later
  recording : ∀ request url response frames recording length commit,
    ⟨request, url, .reading response frames (.recording recording length)⟩ ∈ w.exchanges →
    recording.commit = some commit →
    Recorded w.cache.config request url response frames recording commit

section Invariant

variable {env : Env} {w : World} {config : CacheConfig} {xs : List Exchange}

variable {request : Request} {state : PendingInner} {url : Url} {frames : List Frame}
  {response : Response}

theorem kept_of_judge {status : StatusCode} {headers : HeaderMap} {names : List HeaderName}
    (hasked : Asked request url state) (h : state.judge config status headers = .ok names) :
    Kept config request.headers status headers (CacheControl.of headers) names := by
  rw [PendingInner.judge, hasked.headers] at h
  exact kept_of_storable h

theorem held_of_recorded {rest : List Frame} {recording : Recording} {body : Body} {commit : Commit}
    (h : Recorded config request url response frames recording commit)
    (hx : ⟨request, url, .reading response (frames ++ .done :: rest) body⟩ ∈ xs) :
    Held config xs commit.key (commit.entry recording.buffered)
      ⟨request, url, response, response.headers⟩ [] := by
  obtain ⟨names, hkept, hstatus, hversion, hheaders, hselector⟩ := h.made
  have hentry : commit.entry recording.buffered = ⟨response.status, response.version,
      stripHopByHop response.headers, dataOf frames, Selector.of names request.headers,
      commit.requestedAt, commit.receivedAt⟩ := by
    rw [Commit.entry, hstatus, hversion, hheaders, hselector, h.buffered]
  rw [hentry]
  constructor
  · exact .stored hx hkept.vary _ _
  · intro link hlink
    rw [List.mem_singleton.mp hlink]
    exact ⟨h.method, h.key.symm, h.noStore, hkept.authorized⟩
  · rcases of_stripHopByHop response.headers with hcc | hcc
    · rw [hcc]
    · rw [hcc]
      exact hkept.noStore
  · rcases getAll_stripHopByHop_cases response.headers .setCookie with hs | hs
    · exact hs
    · exact hs.trans hkept.setCookie
  · intro hpriv
    rcases of_stripHopByHop response.headers with hcc | hcc
    · rw [hcc]
    · rw [hcc]
      exact hkept.shared hpriv
  · obtain ⟨current, hcurrent, hsub⟩ := varyNames_stripHopByHop hkept.vary
    exact ⟨names, current, hkept.vary, rfl, hcurrent, hsub, hkept.selectable⟩

/-- A `304` that passes the storage rules refreshes a held entry into one. -/
theorem held_of_refreshed {body : Body} {found : CacheEntry} {names : List HeaderName}
    {origin : Link} {later : List Link} {now : SystemTime}
    (hfound : Held config xs state.key found origin later) (hasked : Asked request url state)
    (hx : ⟨request, url, .reading response frames body⟩ ∈ xs) (hstatus : response.status = 304)
    (hvary : selectsTheSameWay found.headers response.headers)
    (hjudge : state.judge config found.status
      (found.refreshed response.headers state.requestedAt now).headers = .ok names) :
    ∃ origin later, Held config xs state.key
      (found.refreshed response.headers state.requestedAt now) origin later := by
  have hkept := kept_of_judge hasked hjudge
  refine ⟨origin, _, .refreshed hfound.derives hx hstatus _ _, ?_, hkept.noStore,
    hkept.setCookie, hkept.shared, ?_⟩
  · intro link hlink
    rw [← List.cons_append, List.mem_append, List.mem_singleton] at hlink
    rcases hlink with hlink | rfl
    · exact hfound.proper link hlink
    · exact ⟨hasked.method, hasked.key.symm, hasked.noStore, hkept.authorized⟩
  · obtain ⟨origNames, current, hnames, hselector, hcurrent, hsub, hselectable⟩ :=
      hfound.selection
    exact ⟨origNames, current, hnames, hselector, varyNames_refreshed hcurrent hvary, hsub,
      hselectable⟩

theorem sound_new (limits : MemoryLimits) (config : CacheConfig) :
    Sound env (World.new limits config) where
  stored := by
    intro key e h
    have h : e ∈ (MemoryStore.withLimits limits).variantsAt env.process key := h
    rw [MemoryStore.variantsAt_withLimits] at h
    cases h
  pending := by rintro request url state ⟨⟩
  recording := by rintro request url response frames recording length commit ⟨⟩

theorem stored_step (hw : Sound env w) (call : Call) {key : CacheKey} {e : CacheEntry}
    (h : e ∈ (w.step env call).cache.variantsAt env key) :
    ∃ origin later, Held w.cache.config (w.step env call).exchanges key e origin later := by
  have hgrows := w.grows_step env call
  rcases World.mem_variantsAt_step h with h | hput
  · obtain ⟨origin, later, hheld⟩ := hw.stored key e h
    exact ⟨origin, later, hheld.mono hgrows⟩
  · cases World.puts_of_ops hput with
    | refreshed hx hfound hstatus hvary hjudge hy =>
      obtain ⟨hasked, hrevalidating⟩ := hw.pending _ _ _ hx
      obtain ⟨origin, later, hheld⟩ := hrevalidating _ hfound
      exact held_of_refreshed (hheld.mono hgrows) hasked hy hstatus hvary hjudge
    | recorded hx hcommit hy =>
      exact ⟨_, _, held_of_recorded (hw.recording _ _ _ _ _ _ _ hx hcommit) hy⟩

theorem pending_step (hw : Sound env w) (call : Call)
    (h : ⟨request, url, .pending (.store state)⟩ ∈ (w.step env call).exchanges) :
    Asked request url state ∧ ∀ e, state.revalidating = some e →
      ∃ origin later, Held w.cache.config (w.step env call).exchanges state.key e
        origin later := by
  have hgrows := w.grows_step env call
  rcases World.mem_exchanges_step h with h | h
  · obtain ⟨hasked, hrevalidating⟩ := hw.pending _ _ _ h
    refine ⟨hasked, fun e he => ?_⟩
    obtain ⟨origin, later, hheld⟩ := hrevalidating e he
    exact ⟨origin, later, hheld.mono hgrows⟩
  · -- a request just started: what it has found was in the store
    generalize hy : (⟨request, url, .pending (.store state)⟩ : Exchange) = y at h
    cases h with
    | started r u now =>
      injection hy with hr hu hp
      subst hr hu
      injection hp with hp
      have hstarted := (before_spec env w.cache request url now).pending state hp.symm
      refine ⟨hstarted.toAsked, fun e he => ?_⟩
      have hmem := (mem_of_select (hstarted.found e he)).1
      rw [← hstarted.key] at hmem
      obtain ⟨origin, later, hheld⟩ := hw.stored _ e hmem
      exact ⟨origin, later, hheld.mono hgrows⟩
    | answered => cases hy
    | read => cases hy

theorem recording_step (hw : Sound env w) (call : Call) {recording : Recording}
    {length : Option Nat} {commit : Commit}
    (h : ⟨request, url, .reading response frames (.recording recording length)⟩ ∈
      (w.step env call).exchanges) (hcommit : recording.commit = some commit) :
    Recorded w.cache.config request url response frames recording commit := by
  rcases World.mem_exchanges_step h with h | h
  · exact hw.recording _ _ _ _ _ _ _ h hcommit
  · generalize hy :
      (⟨request, url, .reading response frames (.recording recording length)⟩ : Exchange) = y at h
    cases h with
    | started => cases hy
    | answered u r now hx =>
      injection hy with hr hu hp
      injection hp with hresp hframes hbody
      subst hr hu hresp hframes
      obtain ⟨state, names, rfl, rfl, hjudge⟩ := recording_of_after hbody.symm
      cases hcommit
      obtain ⟨hasked, -⟩ := hw.pending _ _ _ hx
      refine ⟨hasked.method, hasked.noStore, hasked.key, rfl, names,
        kept_of_judge hasked hjudge, rfl, rfl, rfl, ?_⟩
      rw [PendingInner.commit, hasked.headers]
    | @read i request' target answer frames' body frame hx =>
      injection hy with hr hu hp
      injection hp with hresp hframes hbody
      subst hr hu hresp hframes
      cases body with
      | incoming => cases hbody
      | fixed => cases hbody
      | draining => cases hbody
      | recording r len =>
        injection hbody with hrec hlen
        subst hrec
        obtain ⟨hold, hbuffered⟩ := commit_of_recording hcommit
        have hprev := hw.recording _ _ _ _ _ _ _ hx hold
        refine { hprev with buffered := ?_ }
        rw [hbuffered, hprev.buffered, dataOf, dataOf, dataOf, List.flatMap_append]

/-- **One call keeps everything in hand sound.** -/
theorem sound_step (hw : Sound env w) (call : Call) : Sound env (w.step env call) := by
  constructor
  · rw [World.config_step]
    exact fun key e h => stored_step hw call h
  · rw [World.config_step]
    exact fun request url state h => pending_step hw call h
  · rw [World.config_step]
    exact fun request url response frames recording length commit h hc =>
      recording_step hw call h hc

/-- **In every run, everything in hand is sound.** -/
theorem sound_run (hw : Sound env w) (calls : List Call) : Sound env (w.run env calls) := by
  induction calls generalizing w with
  | nil => exact hw
  | cons call calls ih => exact ih (sound_step hw call)

end Invariant

/-! ## From the code's reading to the messages -/

/-- The response says `no-store` and `private` in lines that are text, and shows no grant only
inside a quoted string. -/
def isPlain (headers : HeaderMap) : Bool :=
  isLegible headers "no-store".toList && isLegible headers "private".toList &&
    grantsInTheOpen headers

/-- A call that hands the cache only plain messages. -/
def Call.isPlain : Call → Bool
  | .before request _ _ => isLegible request.headers "no-store".toList
  | .after _ _ response _ => Cache.isPlain response.headers
  | .poll _ _ => true
  | .invalidate _ => true

/-- An exchange of plain messages. -/
abbrev Exchange.Plain (x : Exchange) : Prop :=
  x.Holds (fun request => isLegible request.headers "no-store".toList)
    fun answer => isPlain answer.headers

theorem isPlain_congr {other : HeaderMap}
    (h : getAll headers .cacheControl = getAll other .cacheControl) :
    isPlain headers = isPlain other := by
  rw [isPlain, isPlain, isLegible_congr h, isLegible_congr h, grantsInTheOpen_congr h]

theorem isPlain_of_nil (h : getAll headers .cacheControl = []) : isPlain headers := by
  rw [isPlain_congr (show getAll headers .cacheControl = getAll [] .cacheControl from h)]
  decide +kernel

section Plain

variable {env : Env} {xs : List Exchange} {e : CacheEntry} {origin : Link} {later : List Link}

theorem plain_run {limits : MemoryLimits} {config : CacheConfig} {calls : List Call}
    (hcalls : ∀ call ∈ calls, call.isPlain) :
    ∀ x ∈ ((World.new limits config).run env calls).exchanges, x.Plain := by
  refine World.holds_run (by rintro x ⟨⟩) fun call hcall => ?_
  have h := hcalls call hcall
  cases call <;> first | exact h | trivial

/-- The fields a `304` leaves are its own or those it found, so they are as plain. -/
theorem isPlain_refreshed {notModified : HeaderMap} (requestedAt receivedAt : SystemTime)
    (he : isPlain e.headers) (hn : isPlain notModified) :
    isPlain (e.refreshed notModified requestedAt receivedAt).headers := by
  have hall := e.getAll_refreshed notModified requestedAt receivedAt .cacheControl
  split_ifs at hall
  · rw [isPlain_congr hall]
    exact hn
  · rw [isPlain_congr hall]
    exact he

theorem plain_of_derives (hxs : ∀ x ∈ xs, x.Plain) (h : Derives xs e origin later) :
    isPlain e.headers ∧
      ∀ link ∈ origin :: later,
        isLegible link.request.headers "no-store".toList ∧ isPlain link.fields := by
  induction h with
  | stored hx hnames requestedAt receivedAt =>
    have hplain := (hxs _ hx).answer _ _ _ rfl
    refine ⟨?_, fun link hlink => ?_⟩
    · rcases getAll_stripHopByHop_cases _ .cacheControl with hs | hs
      · exact isPlain_of_nil hs
      · rw [isPlain_congr hs]
        exact hplain
    · rw [List.mem_singleton.mp hlink]
      exact ⟨(hxs _ hx).request, hplain⟩
  | refreshed _ hx hstatus requestedAt receivedAt ih =>
    have hplain := isPlain_refreshed requestedAt receivedAt ih.1
      ((hxs _ hx).answer _ _ _ rfl)
    refine ⟨hplain, fun link hlink => ?_⟩
    rw [← List.cons_append, List.mem_append, List.mem_singleton] at hlink
    rcases hlink with hlink | rfl
    · exact ih.2 link hlink
    · exact ⟨(hxs _ hx).request, hplain⟩

end Plain

/-! ## What a served response owes its requester -/

/-- The provenance of an entry served for `request` at `url`. -/
structure Provenance (config : CacheConfig) (xs : List Exchange) (request : Request) (url : Url)
    (e : CacheEntry) (origin : Link) (later : List Link) : Prop where
  derives : Derives xs e origin later
  exchanges : ∀ link ∈ origin :: later, link.request.method = .get ∧
    CacheKey.new .get link.url = CacheKey.new .get url ∧
    ¬ Carries link.request.headers "no-store".toList
  authorized : config.storePrivate = false → ∀ link ∈ origin :: later,
    containsKey link.request.headers .authorization → ∃ grant ∈ grants, Carries link.fields grant
  selected : ∀ name, SelectsOn origin.response.headers name ∨ SelectsOn e.headers name →
    getAll request.headers name = getAll origin.request.headers name
  noStore : ¬ Carries e.headers "no-store".toList
  setCookie : getAll e.headers .setCookie = []
  star : ¬ SelectsOnStar e.headers
  selectable : ∀ name, SelectsOn e.headers name → name.text ∉ unselectable
  notPrivate : config.storePrivate = false → ¬ Carries e.headers "private".toList

theorem exists_grant_of_isShareable (hopen : grantsInTheOpen headers)
    (h : (CacheControl.of headers).isShareable) : ∃ grant ∈ grants, Carries headers grant := by
  rw [CacheControl.isShareable, Bool.or_eq_true, Bool.or_eq_true] at h
  rcases h with (h | h) | h
  · exact exists_grant_of_flag reports_isPublic (by decide) hopen h
  · exact exists_grant_of_flag reports_mustRevalidate (by decide) hopen h
  · exact exists_grant_of_flag reports_sMaxage (by decide) hopen h

/-- A held entry that matches the request has the provenance it should have, when every exchange
was plain. -/
theorem provenance_of_held {config : CacheConfig} {xs : List Exchange} {request : Request}
    {url : Url} {e : CacheEntry} {origin : Link} {later : List Link}
    (hxs : ∀ x ∈ xs, x.Plain) (h : Held config xs (CacheKey.new .get url) e origin later)
    (hmatch : e.selector.matchesRequest request.headers) :
    Provenance config xs request url e origin later := by
  obtain ⟨hplain, hlinks⟩ := plain_of_derives hxs h.derives
  simp only [isPlain, Bool.and_eq_true] at hplain
  obtain ⟨names, current, hnames, hselector, hcurrent, hsub, hselectable⟩ := h.selection
  have hlisted : ∀ name, SelectsOn e.headers name → name ∈ names :=
    fun name hname => hsub ((mem_varyNames hcurrent name).mpr hname)
  constructor
  · exact h.derives
  · intro link hlink
    have hproper := h.proper link hlink
    refine ⟨hproper.method, hproper.key, ?_⟩
    exact not_carries_of_flag raises_noStore (by decide) (hlinks link hlink).1
      (by rw [← CacheControl.noStore_ofRequest]; exact hproper.noStore)
  · intro hpriv link hlink hauth
    have hopen := (hlinks link hlink).2
    simp only [isPlain, Bool.and_eq_true] at hopen
    exact exists_grant_of_isShareable hopen.2 ((h.proper link hlink).authorized hpriv hauth)
  · intro name hname
    rw [hselector, Selector.matchesRequest_of_iff] at hmatch
    rcases hname with hname | hname
    · exact hmatch name ((mem_varyNames hnames name).mpr hname)
    · exact hmatch name (hlisted name hname)
  · exact not_carries_of_flag raises_noStore (by decide) hplain.1.1 h.noStore
  · exact h.setCookie
  · exact not_selectsOnStar hcurrent
  · exact fun name hname => hselectable name (hlisted name hname)
  · exact fun hpriv =>
      not_carries_of_flag raises_isPrivate (by decide) hplain.1.2 (h.shared hpriv)

/-- **Provenance.** In every run of plain messages, what `before` serves is an entry that derives
from `GET`s of the same target that did not say `no-store`; it was selected by the values this
request presents, and its fields forbid none of it. -/
theorem served_provenance (env : Env) (limits : MemoryLimits) (config : CacheConfig)
    (calls : List Call) (hcalls : ∀ call ∈ calls, call.isPlain) (request : Request) (url : Url)
    (now : SystemTime) (reply : Reply)
    (h : (((World.new limits config).run env calls).cache.before env request url now).served =
      some reply) :
    ∃ e origin later,
      (((World.new limits config).run env calls).cache.select env (CacheKey.new .get url)
        request.headers).1 = some e ∧
      reply = toResponse e (currentAge e now) .hit ∧
      Provenance config ((World.new limits config).run env calls).exchanges request url e
        origin later := by
  obtain ⟨e, hselect, hreply, -⟩ := (before_spec env _ request url now).served reply h
  obtain ⟨hmem, hmatch⟩ := mem_of_select hselect
  have hsound : Sound env ((World.new limits config).run env calls) :=
    sound_run (sound_new limits config) calls
  obtain ⟨origin, later, hheld⟩ := hsound.stored _ e hmem
  rw [World.config_run] at hheld
  exact ⟨e, origin, later, hselect, hreply, provenance_of_held (plain_run hcalls) hheld hmatch⟩

/-- A page stored at time zero, stale after a minute, and confirmed by a `304` after two. -/
def revalidatedPage (url : Url) : List Call :=
  fetch 0 url [(.cacheControl, .fromStatic "max-age=60"), (.etag, .fromStatic "v1"),
    (.vary, .fromStatic "Accept-Language")] ++
  [.before ⟨.get, []⟩ url (SystemTime.ofEpochSeconds 120),
    .after 1 url ⟨304, .http11, [(.cacheControl, .fromStatic "public, max-age=600")], none⟩
      (SystemTime.ofEpochSeconds 120)]

/-- The revalidated page is served again, and its provenance is the two exchanges. -/
theorem revalidatedPage_provenance :
    ∃ reply e origin later,
      (((World.new .default .default).run .simple
        (revalidatedPage (.plain "https" "example.com" "/"))).cache.before .simple ⟨.get, []⟩
        (.plain "https" "example.com" "/") (SystemTime.ofEpochSeconds 130)).served = some reply ∧
      Provenance .default ((World.new .default .default).run .simple
        (revalidatedPage (.plain "https" "example.com" "/"))).exchanges ⟨.get, []⟩
        (.plain "https" "example.com" "/") e origin later := by
  have hserved : (((World.new .default .default).run .simple
      (revalidatedPage (.plain "https" "example.com" "/"))).cache.before .simple ⟨.get, []⟩
      (.plain "https" "example.com" "/") (SystemTime.ofEpochSeconds 130)).served.isSome := by
    decide +kernel
  obtain ⟨reply, hreply⟩ := Option.isSome_iff_exists.mp hserved
  obtain ⟨e, origin, later, -, -, hprovenance⟩ := served_provenance .simple .default .default
    (revalidatedPage (.plain "https" "example.com" "/")) (by decide) _ _ _ reply hreply
  exact ⟨reply, e, origin, later, hreply, hprovenance⟩

/-- A `Cache-Control` line that says `no-store` beside a quoted byte outside ASCII. -/
def unreadableNoStore : HeaderValue :=
  ⟨("no-store, x=".toList.map fun c => c.toNat.toUInt8) ++ [0x22, 0xE9, 0x22], by decide⟩

/-- **A response that says `no-store` is stored and served** when that line is not ASCII. -/
theorem unreadable_noStore_served :
    (((World.new .default .default).run .simple
      (fetch 0 (.plain "https" "example.com" "/")
        [(.cacheControl, .fromStatic "max-age=60"), (.cacheControl, unreadableNoStore)])
      ).cache.before .simple ⟨.get, []⟩ (.plain "https" "example.com" "/") 0).served.any
      (fun reply => reply.cacheStatus = some .hit ∧ Carries reply.headers "no-store".toList) =
    true := by
  decide +kernel

end Chromulate.Cache
