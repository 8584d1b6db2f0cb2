import Chromulate.Http.Hops

/-!
# Conditional requests along a chain

The cache and the validator store make a request conditional: they put on it the `ETag` and the
`Last-Modified` of a response stored for its URL. They put them into the request itself, and the
redirect keeps them. So when a conditional request is answered with a redirect, the validators of
one URL go to the next.

`validators_stay`: if nothing is stored for a URL that is redirected to another (`Unstored`), every
validator on the wire is the caller's or one stored for the URL it is sent to.
`validator_sent_elsewhere` is a run where one is not.
-/

namespace Chromulate.Http

open Redirect Header

/-- The names a response's validators go by, and the names they are sent back under. -/
def IsValidator (name : HeaderName) (etag lastModified : Option HeaderValue) (value : HeaderValue) :
    Prop :=
  (name = .ifNoneMatch ∧ etag = some value) ∨ (name = .ifModifiedSince ∧ lastModified = some value)

/-- The validator store of a session has a validator for a URL. -/
def Session.Holds (session : Session) (url : Url) (name : HeaderName) (value : HeaderValue) :
    Prop :=
  ∃ validators, session.validators url = some validators ∧
    IsValidator name validators.etag validators.lastModified value

/-- A cache has a validator for a URL: that of a response it has stored. -/
def CacheHolds (env : Cache.Env) (cache : Cache.HttpCache) (url : Url) (name : HeaderName)
    (value : HeaderValue) : Prop :=
  ∃ entry ∈ (cache.storage.get env.process (Cache.CacheKey.new .get url)).1,
    IsValidator name (entry.headers.get .etag) (entry.headers.get .lastModified) value

/-- A turn finds a validator for a URL, in its session or in the cache. -/
def Turn.Holds (env : Cache.Env) (turn : Turn) (url : Url) (name : HeaderName)
    (value : HeaderValue) : Prop :=
  turn.session.Holds url name value ∨ ∃ cache, turn.cache = some cache ∧
    CacheHolds env cache url name value

/-! ## What is added -/

variable {name : HeaderName} {value : HeaderValue}

theorem mem_insert_validator {headers : HeaderMap} {validator : HeaderName}
    {stored : Option HeaderValue} (h : value ∈ (match stored with
      | some stored => headers.insert validator stored
      | none => headers).getAll name) :
    value ∈ headers.getAll name ∨ (name = validator ∧ stored = some value) := by
  cases stored with
  | none => exact Or.inl h
  | some stored =>
    dsimp only at h
    rw [HeaderMap.getAll_insert] at h
    split_ifs at h with hname
    · exact Or.inr ⟨hname, by rw [List.mem_singleton.mp h]⟩
    · exact Or.inl h

theorem mem_condition {session : Session} {url : Url} {request : Request}
    (h : value ∈ (session.condition url request).getAll name) :
    value ∈ request.headers.getAll name ∨ session.Holds url name value := by
  unfold Session.condition at h
  split at h
  · exact Or.inl h
  · split at h
    · exact Or.inl h
    · rename_i validators hvalidators
      rcases mem_insert_validator h with hmem | hmodified
      · rcases mem_insert_validator hmem with hmem | htag
        · exact Or.inl hmem
        · exact Or.inr ⟨validators, hvalidators, Or.inl htag⟩
      · exact Or.inr ⟨validators, hvalidators, Or.inr hmodified⟩

theorem mem_before {env : Cache.Env} {cache : Cache.HttpCache} {request : Cache.Request} {url : Url}
    {now : SystemTime}
    (h : value ∈ (cache.before env request url now).request.headers.getAll name) :
    value ∈ request.headers.getAll name ∨ CacheHolds env cache url name value := by
  unfold Cache.HttpCache.before at h
  split at h
  · exact Or.inl h
  · rename_i hcacheable
    have hmethod : request.method = .get := by
      simp only [Bool.or_eq_true, decide_eq_true_eq, not_or, ne_eq, not_not] at hcacheable
      exact hcacheable.1.2
    dsimp only at h
    split at h
    · exact Or.inl h
    · rename_i entry _ hselect
      have hentry : entry ∈ (cache.storage.get env.process (Cache.CacheKey.new .get url)).1 := by
        have hfind := congrArg Prod.fst hselect
        dsimp only [Cache.HttpCache.select, Cache.PendingInner.start] at hfind
        rw [hmethod] at hfind
        exact List.mem_of_find?_eq_some hfind
      split at h
      · exact Or.inl h
      · split at h
        · exact Or.inl h
        · rcases mem_insert_validator h with hmem | hmodified
          · rcases mem_insert_validator hmem with hmem | htag
            · exact Or.inl hmem
            · exact Or.inr ⟨entry, hentry, Or.inl htag⟩
          · exact Or.inr ⟨entry, hentry, Or.inr hmodified⟩

namespace Engine

variable {engine : Engine}

variable {name : HeaderName} {value : HeaderValue}

theorem mem_cached {state : State} {turn : Turn}
    (h : value ∈ (engine.cached state turn).headers.getAll name) :
    value ∈ state.request.headers.getAll name ∨
      turn.Holds engine.cacheEnv state.url name value := by
  unfold cached cacheBefore at h
  cases hcache : turn.cache with
  | none =>
    rw [hcache] at h
    exact Or.inl h
  | some cache =>
    rw [hcache] at h
    exact (mem_before h).imp_right fun hholds => Or.inr ⟨cache, hcache, hholds⟩

theorem mem_conditioned {state : State} {turn : Turn} {protocol : Protocol}
    (h : value ∈ (engine.conditioned state turn protocol).headers.getAll name) :
    value ∈ state.request.headers.getAll name ∨
      turn.Holds engine.cacheEnv state.url name value := by
  rcases mem_condition h with hmem | hholds
  · exact mem_cached hmem
  · exact Or.inr (Or.inl hholds)

/-! ## The chain -/

/-- Where a turn is followed by one about another URL, no turn about its own has found a validator
for that by then. -/
def Unstored (engine : Engine) (hops : List (Turn × Visit)) : Prop :=
  ∀ front hop next back, hops = front ++ hop :: next :: back → next.2.url ≠ hop.2.url →
    ∀ earlier ∈ front ++ [hop], earlier.2.url = hop.2.url →
      ∀ name value, ¬ earlier.1.Holds engine.cacheEnv hop.2.url name value

/-- A value under a name is the caller's, or was found for a URL in one of some turns that were
about it. -/
def Accounted (engine : Engine) (request : Request) (past : List (Turn × Visit)) (url : Url)
    (name : HeaderName) (value : HeaderValue) : Prop :=
  value ∈ request.headers.getAll name ∨
    ∃ hop ∈ past, hop.2.url = url ∧ hop.1.Holds engine.cacheEnv url name value

/-- Every validator on a request is accounted for. -/
def AllAccounted (engine : Engine) (request : Request) (past : List (Turn × Visit)) (url : Url)
    (headers : HeaderMap) : Prop :=
  ∀ name ∈ validatorNames, ∀ value ∈ headers.getAll name,
    engine.Accounted request past url name value

variable {request : Request} {limit : Option Nat} {past : List (Turn × Visit)} {state next : State}
  {turn : Turn} {visit : Visit}

theorem Unstored.front {more : List (Turn × Visit)} (h : engine.Unstored (past ++ more)) :
    engine.Unstored past := by
  rintro front hop next back rfl
  exact h front hop next (back ++ more) (by simp)

theorem Accounted.append {url : Url} (h : engine.Accounted request past url name value)
    (more : List (Turn × Visit)) : engine.Accounted request (past ++ more) url name value := by
  rcases h with hown | ⟨hop, hmem, hhop⟩
  · exact Or.inl hown
  · exact Or.inr ⟨hop, List.mem_append_left _ hmem, hhop⟩

theorem AllAccounted.extend (h : engine.AllAccounted request past state.url state.request.headers)
    (hurl : visit.url = state.url) (headers : HeaderMap)
    (hadded : ∀ name ∈ validatorNames, ∀ value ∈ headers.getAll name,
      value ∈ state.request.headers.getAll name ∨
        turn.Holds engine.cacheEnv state.url name value) :
    engine.AllAccounted request (past ++ [(turn, visit)]) state.url headers := by
  intro name hname value hvalue
  rcases hadded name hname value hvalue with hmem | hholds
  · exact (h name hname value hmem).append _
  · exact Or.inr ⟨(turn, visit), by simp, hurl, hholds⟩

theorem plain_of_validator (h : name ∈ validatorNames) :
    supplies name = false ∧ name ≠ .cookie ∧ name ≠ .host ∧ name ∉ credentialHeaders ∧
      name ∉ bodyHeaders := by
  revert name
  decide +kernel

/-- On the wire, and on the request then, are no validators but those it had and those that were
added. -/
theorem mem_of_puts {protocol : Protocol} {applied : Request} {sent : Sent}
    (h : engine.Puts state turn protocol applied sent) (hname : name ∈ validatorNames)
    (hvalue : value ∈ sent.headers.getAll name ∨ value ∈ applied.headers.getAll name) :
    value ∈ state.request.headers.getAll name ∨
      turn.Holds engine.cacheEnv state.url name value := by
  obtain ⟨hsupplies, hcookie, -⟩ := plain_of_validator hname
  obtain ⟨hsent, happlied⟩ := h.getAll_of_not_supplies hsupplies hcookie
  rw [hsent, happlied, or_self] at hvalue
  exact mem_conditioned hvalue

theorem mem_asked {asked : Request} {out : Option Sent} (h : engine.Asked state turn out asked)
    (hname : name ∈ validatorNames) (hvalue : value ∈ asked.headers.getAll name) :
    value ∈ state.request.headers.getAll name ∨
      turn.Holds engine.cacheEnv state.url name value := by
  cases h with
  | served => exact mem_cached hvalue
  | sent hputs => exact mem_of_puts hputs hname (Or.inr hvalue)

/-- **The step.** -/
theorem AllAccounted.step (h : engine.AllAccounted request past state.url state.request.headers)
    (turn : Turn) :
    let hops := past ++ [(turn, (engine.turn limit state turn).1)]
    (∀ sent, (engine.turn limit state turn).1.sent = some sent →
      engine.AllAccounted request hops sent.url sent.headers) ∧
    ∀ next later, (engine.turn limit state turn).2 = .inl next → later.2.url = next.url →
      engine.Unstored (hops ++ [later]) →
      engine.AllAccounted request hops next.url next.request.headers := by
  obtain ⟨hputs, hgoes⟩ := turn_parts engine limit state turn
  have hurl := (turn_spec engine limit state turn).url
  constructor
  · intro sent hsent
    obtain ⟨protocol, applied, hput⟩ := hputs sent hsent
    have hsame : sent.url = state.url := by rw [hput.sends]; rfl
    rw [hsame]
    exact h.extend hurl _ fun name hname value hvalue => mem_of_puts hput hname (Or.inl hvalue)
  · intro next later hnext hlater hunstored
    obtain ⟨asked, status, hop, hgo⟩ := hgoes next hnext
    obtain ⟨body, hrebuilt⟩ := hgo.rebuilt
    have hextended := h.extend hurl next.request.headers
      fun name hname value hvalue => by
        obtain ⟨-, -, hhost, hcredential, hbody⟩ := plain_of_validator hname
        have hkept : drops hop name = false := by simp [drops, hcredential, hbody]
        rw [getAll_rebuild hrebuilt hhost, hkept] at hvalue
        exact mem_asked hgo.last hname hvalue
    by_cases hsame : next.url = state.url
    · rwa [hsame]
    · -- what was found for the URL that is left would have been stored
      intro name hname value hvalue
      rcases hextended name hname value hvalue with hown | ⟨found, hfound, habout, hholds⟩
      · exact Or.inl hown
      · refine absurd hholds ?_
        rw [← hurl] at habout hsame ⊢
        refine hunstored past _ later [] (by simp) ?_ found hfound habout name value
        rwa [hlater]

/-- **Validators do not travel**, in a run where nothing is stored for a URL that is redirected to
another. -/
theorem validators_stay (engine : Engine) (request : Request) (requestUrl : Option Url)
    (hsts : HstsStore) (now : SystemTime) (turns : List Turn)
    (hunstored : engine.Unstored
      (turns.zip (engine.run request requestUrl hsts now turns).1)) :
    let visits := (engine.run request requestUrl hsts now turns).1
    ∀ k visit sent, visits[k]? = some visit → visit.sent = some sent →
      engine.AllAccounted request ((turns.zip visits).take (k + 1)) sent.url sent.headers := by
  dsimp only
  intro k visit sent hvisit hsent
  rw [← List.take_append_drop (k + 1) (turns.zip _)] at hunstored
  replace hunstored := hunstored.front
  unfold run at hvisit hunstored ⊢
  cases hurl : engine.startUrl request requestUrl with
  | error error => simp [hurl] at hvisit
  | ok url =>
    rw [hurl] at hvisit hunstored
    have hstart : engine.AllAccounted request [] (engine.start request url hsts now).url
        (engine.start request url hsts now).request.headers :=
      fun name _ value hvalue => Or.inl hvalue
    obtain ⟨turn, hturn, hsends⟩ := Loop.run_zip_rule
      (fun past state => ∀ later, later.2.url = state.url → engine.Unstored (past ++ [later]) →
        engine.AllAccounted request past state.url state.request.headers)
      (fun past turn visit => engine.Unstored (past ++ [(turn, visit)]) →
        ∀ sent, visit.sent = some sent →
          engine.AllAccounted request (past ++ [(turn, visit)]) sent.url sent.headers)
      (fun past state turn h _ => by
        have hurl := (turn_spec engine (engine.limitFor request.options) state turn).url
        refine ⟨fun hhere => ((h (turn, _) hurl hhere).step turn).1, ?_⟩
        intro next hnext later hlater hthere
        exact ((h (turn, _) hurl hthere.front).step turn).2 next later hnext hlater hthere)
      (Loop.meets_true _ turns) [] (fun _ _ _ => hstart) hvisit
    have hzip : (turns.zip (Loop.run (engine.turn (engine.limitFor request.options))
        (engine.start request url hsts now) turns).1)[k]? = some (turn, visit) := by
      rw [List.getElem?_zip_eq_some]
      exact ⟨hturn, hvisit⟩
    dsimp only at hunstored ⊢
    rw [List.take_add_one, hzip] at hunstored ⊢
    exact hsends hunstored sent hsent

/-- A turn whose session has seen an `ETag` at a path. -/
def seeing (path : String) (turn : Turn) : Turn :=
  { turn with
    session := { turn.session with
      validators := fun url =>
        if url.path = path.toList then some ⟨some (.fromStatic "\"v1\""), none⟩ else none } }

/-- A link to one page that is answered with a redirect to another; of one of the two the session
has seen an `ETag`. -/
def moved (seen : String) : List Turn :=
  [seeing seen (Turn.answering 302 [(.location, .fromStatic "https://example.com/new")]),
    seeing seen (Turn.answering 200 [])]

/-- Of the second: its own request is conditional. -/
theorem validators_stay_new :
    let visits := (small.run (.plain .get [] .empty) (some (.plain "https" "example.com" "/old"))
      HstsStore.new 0 (moved "/new")).1
    (visits.map fun visit => visit.sent.map fun sent => sent.headers.getAll .ifNoneMatch) =
        [some [], some [.fromStatic "\"v1\""]] ∧
      ∀ visit sent, visits[1]? = some visit → visit.sent = some sent →
        small.AllAccounted (.plain .get [] .empty) (((moved "/new").zip visits).take 2) sent.url
          sent.headers := by
  intro visits
  refine ⟨by decide +kernel, fun visit sent => ?_⟩
  refine validators_stay small _ _ HstsStore.new 0 (moved "/new") ?_ 1 visit sent
  -- the first of the two turns is the one that is redirected, and nothing is stored for its URL
  rintro front hop next back hhops - earlier hearlier - name value
  have hlength : ((moved "/new").zip visits).length = _ := congrArg List.length hhops
  have hmost : ((moved "/new").zip visits).length ≤ 2 := by
    rw [List.length_zip]
    exact Nat.min_le_left _ _
  rw [List.length_append, List.length_cons, List.length_cons] at hlength
  have hfront : front = [] := List.length_eq_zero_iff.mp (by omega)
  rw [hfront] at hhops hearlier
  have hfirst : ((moved "/new").zip visits)[0]? = some hop := by rw [hhops]; rfl
  obtain ⟨hturn, hvisit⟩ := List.getElem?_zip_eq_some.mp hfirst
  have hpath : ∀ visit ∈ visits[0]?, visit.url.path = "/old".toList := by decide +kernel
  cases List.mem_singleton.mp hearlier
  rw [← Option.some.inj hturn]
  rintro (⟨validators, hvalidators, -⟩ | ⟨cache, hcache, -⟩)
  · simp [seeing, hpath _ hvisit] at hvalidators
  · cases hcache

/-- Of the first: the request for the second has its `ETag`, and nothing is stored for it. -/
theorem validator_sent_elsewhere :
    let visits := (small.run (.plain .get [] .empty) (some (.plain "https" "example.com" "/old"))
      HstsStore.new 0 (moved "/old")).1
    (visits.map fun visit => visit.sent.map fun sent =>
        (sent.url.path, sent.headers.getAll .ifNoneMatch)) =
        [some ("/old".toList, [.fromStatic "\"v1\""]),
          some ("/new".toList, [.fromStatic "\"v1\""])] ∧
      ∀ turn ∈ moved "/old", turn.cache.isNone ∧ ∀ visit ∈ visits, visit.url.path = "/new".toList →
        (turn.session.validators visit.url).isNone := by
  decide +kernel

end Engine

end Chromulate.Http
