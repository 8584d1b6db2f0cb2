import Chromulate.Http.Engine

/-!
# What a turn is made of

`TurnSpec` says what a turn does to the headers only the caller sets. The modules that follow ask
about the others too: what the cache and the validator store add, what the header engine computes,
and what of it is still there when the redirect is followed. Here a turn is taken apart once. What
it puts on the wire is `apply_headers` of a request that was conditioned before (`Puts`), and when
it goes on, the next request is `rebuild` of the last form this one had (`GoesOn`).
-/

namespace Chromulate.Http.Engine

open Redirect Header

variable (engine : Engine)

/-- A state once the body is taken out of its request. -/
def emptied (state : State) : State :=
  { state with request := { state.request with body := .empty } }

/-- The request of a turn once the cache has seen it. -/
def cached (state : State) (turn : Turn) : Request :=
  (engine.cacheBefore turn.cache (emptied state)).1

/-- The request `apply_headers` is given: the cache and the validator store have added what they
have for the URL. -/
def conditioned (state : State) (turn : Turn) (protocol : Protocol) : Request :=
  let request := { engine.cached state turn with version := protocol.version }
  { request with headers := turn.session.condition state.url request }

/-- What a turn puts on the wire, and the request it has then. -/
structure Puts (state : State) (turn : Turn) (protocol : Protocol) (applied : Request)
    (sent : Sent) : Prop where
  connection : turn.connection = .ok protocol
  origin : ∃ origin, Origin.of engine.crate state.url = .ok origin
  applies : engine.applyHeaders turn.session (engine.conditioned state turn protocol) state.url =
    .ok (applied, sent.headers)
  sends : sent = outgoingRequest
    { state with request := applied, clock := state.clock + turn.wait } protocol
    state.request.body sent.headers

/-- The last form of a turn's request: as the cache left it, or as it was sent. -/
inductive Asked (state : State) (turn : Turn) : Option Sent → Request → Prop
  | served : Asked state turn none (engine.cached state turn)
  | sent {protocol : Protocol} {applied : Request} {sent : Sent} :
      engine.Puts state turn protocol applied sent → Asked state turn (some sent) applied

/-- A turn that goes on has followed a redirect, and its request is rebuilt. -/
structure GoesOn (limit : Option Nat) (state : State) (turn : Turn) (visit : Visit)
    (asked : Request) (status : StatusCode) (hop : Hop) (next : State) : Prop where
  last : engine.Asked state turn visit.sent asked
  answered : visit.status = some status
  followed : Followed status state.url asked.method limit state.chain.length hop
  joined : ∃ text, engine.crate.join state.url text = .ok hop.url
  rebuilt : ∃ body, engine.rebuild asked hop body = .ok next.request
  url : next.url = hop.url

variable {engine}

variable {state : State} {turn : Turn} {body : Body} {name : HeaderName}
  {request previous : Request} {hop : Hop}

theorem goesOn_of_conclude {limit : Option Nat} (initial : State) {next : State}
    {sent : Option Sent} {spare : Option Body} {status : StatusCode} {headers : HeaderMap}
    (hurl : state.url = initial.url) (hchain : state.chain = initial.chain)
    (hasked : engine.Asked initial turn sent state.request)
    (h : engine.conclude limit state spare status headers = .inl next) :
    ∃ hop, engine.GoesOn limit initial turn ⟨initial.url, sent, some status⟩ state.request status
      hop next := by
  obtain ⟨hop, body, request, hdecide, -, hrebuild, rfl⟩ := conclude_eq_inl h
  obtain ⟨hfollowed, text, -, hjoined⟩ := followed_of_decide hdecide
  rw [hurl] at hjoined
  rw [hurl, hchain] at hfollowed
  exact ⟨hop, hasked, rfl, hfollowed, ⟨_, hjoined⟩, ⟨body, hrebuild⟩, rfl⟩

/-- What a hop leaves of the state, and what it sends. -/
theorem puts_of_hop {after : State} {sent : Sent} {answer : Except Error Cache.Response}
    (h : engine.hop turn { state with request := engine.cached state turn }
      state.request.body = (after, some sent, answer)) :
    ∃ protocol, engine.Puts state turn protocol after.request sent := by
  unfold hop at h
  dsimp only at h
  split at h
  · cases h
  · cases h
  · rename_i origin protocol horigin hconnection
    split at h
    · cases h
    · rename_i applied ordered happlies
      refine ⟨protocol, ?_⟩
      split at h
      · cases h
        exact ⟨hconnection, ⟨origin, horigin⟩, happlies, rfl⟩
      · cases h
        exact ⟨hconnection, ⟨origin, horigin⟩, happlies, rfl⟩

/-- **What a turn is made of.** -/
theorem turn_parts (engine : Engine) (limit : Option Nat) (state : State) (turn : Turn) :
    (∀ sent, (engine.turn limit state turn).1.sent = some sent →
      ∃ protocol applied, engine.Puts state turn protocol applied sent) ∧
    ∀ next, (engine.turn limit state turn).2 = .inl next → ∃ asked status hop,
      engine.GoesOn limit state turn (engine.turn limit state turn).1 asked status hop next := by
  unfold Engine.turn
  dsimp only
  split
  · rename_i request pending reply hbefore
    have hcached : request = engine.cached state turn := (congrArg Prod.fst hbefore).symm
    refine ⟨(fun sent h => by cases h), fun next h => ?_⟩
    subst hcached
    have hurl : ({ state with request := engine.cached state turn } : State).url = state.url := rfl
    obtain ⟨hop, hgoes⟩ := goesOn_of_conclude state hurl rfl .served h
    exact ⟨_, _, hop, hgoes⟩
  · rename_i request pending hbefore
    have hcached : request = engine.cached state turn := (congrArg Prod.fst hbefore).symm
    subst hcached
    split
    · rename_i after sent error hhop
      refine ⟨fun found h => ?_, fun next h => by cases h⟩
      cases h
      obtain ⟨protocol, hputs⟩ := puts_of_hop hhop
      exact ⟨protocol, _, hputs⟩
    · rename_i after sent response hhop
      obtain ⟨found, rfl⟩ := Option.isSome_iff_exists.mp (eq_of_hop hhop).2.1
      obtain ⟨protocol, hputs⟩ := puts_of_hop hhop
      have hspec := hop_spec engine turn { state with request := engine.cached state turn }
        state.request.body
      rw [hhop] at hspec
      have hurl : after.url = state.url := hspec.url
      refine ⟨fun other h => ?_, fun next h => ?_⟩
      · cases h
        exact ⟨protocol, _, hputs⟩
      · obtain ⟨hop, hgoes⟩ := goesOn_of_conclude state hurl hspec.chain (.sent hputs) h
        rw [← hurl] at hgoes
        exact ⟨_, _, hop, hgoes⟩

/-! ## What is left of a request -/

theorem cached_eq (state : State) (turn : Turn) :
    engine.cached state turn = { state.request with
      body := .empty
      headers := (engine.cached state turn).headers } := by
  unfold cached cacheBefore
  cases turn.cache <;> rfl

theorem conditioned_eq (state : State) (turn : Turn) (protocol : Protocol) :
    engine.conditioned state turn protocol = { state.request with
      version := protocol.version
      body := .empty
      headers := (engine.conditioned state turn protocol).headers } := by
  unfold conditioned
  rw [cached_eq]

theorem getAll_cached (state : State) (turn : Turn) (h : name ∉ validatorNames) :
    (engine.cached state turn).headers.getAll name = state.request.headers.getAll name := by
  unfold cached cacheBefore
  cases turn.cache with
  | none => rfl
  | some cache => exact getAll_before _ _ _ _ _ h

theorem getAll_conditioned (state : State) (turn : Turn) (protocol : Protocol)
    (h : name ∉ validatorNames) :
    (engine.conditioned state turn protocol).headers.getAll name =
      state.request.headers.getAll name :=
  (getAll_condition turn.session state.url _ h).trans (getAll_cached state turn h)

/-- `apply_headers` is `HeaderEngine::apply` of the request's headers, but for the cookie. -/
structure Applies (engine : Engine) (session : Session) (request : Request) (url : Url)
    (applied : Request) (ordered callers : HeaderMap) : Prop where
  made : ∃ made, engine.headers.apply engine.crate
    ⟨request.method, request.version, request.userActivated⟩ callers url request.options
    session.granted = .ok (made, ordered)
  given : ∀ name, name ≠ .cookie → callers.getAll name = request.headers.getAll name
  kept : applied = { request with headers := applied.headers }
  written : ∀ name, name ≠ .cookie → applied.headers.getAll name = ordered.getAll name

theorem applies_of_applyHeaders {session : Session} {applied : Request} {url : Url}
    {ordered : HeaderMap} (h : engine.applyHeaders session request url = .ok (applied, ordered)) :
    ∃ callers, engine.Applies session request url applied ordered callers := by
  unfold applyHeaders at h
  dsimp only at h
  split at h
  · cases h
  · rename_i made ordered' happly
    cases h
    refine ⟨_, ⟨made, happly⟩, fun name hname => ?_, rfl, fun name hname => ?_⟩
    · cases fromJar session request url with
      | none => rfl
      | some value => exact (HeaderMap.getAll_insert _ _ _ _).trans (if_neg hname)
    · have hsame := (HeaderEngine.getAll_of_apply happly name).1
      dsimp only
      split
      · rw [HeaderMap.getAll_remove, if_neg hname, hsame]
      · exact hsame

/-- What no slot has a value for goes on the wire as it is. -/
theorem Puts.getAll_of_not_supplies {protocol : Protocol} {applied : Request} {sent : Sent}
    (h : engine.Puts state turn protocol applied sent) (hname : supplies name = false)
    (hcookie : name ≠ .cookie) :
    sent.headers.getAll name = (engine.conditioned state turn protocol).headers.getAll name ∧
      applied.headers.getAll name =
        (engine.conditioned state turn protocol).headers.getAll name := by
  obtain ⟨callers, happlies⟩ := applies_of_applyHeaders h.applies
  obtain ⟨made, hmade⟩ := happlies.made
  have hwire : sent.headers.getAll name = callers.getAll name :=
    (HeaderEngine.apply_of_not_supplies hmade hname).2
  have hsent := hwire.trans (happlies.given name hcookie)
  exact ⟨hsent, (happlies.written name hcookie).trans hsent⟩

theorem getAll_host_rebuild (h : engine.rebuild previous hop body = .ok request) :
    request.headers.getAll .host = [] := by
  unfold rebuild at h
  split at h
  · cases h
  · cases h
    show HeaderMap.getAll (HeaderMap.remove _ .host) .host = _
    rw [HeaderMap.getAll_remove, if_pos rfl]

theorem uri_rebuild (h : engine.rebuild previous hop body = .ok request) :
    engine.crate.parseUri (engine.crate.asStr hop.url) = .ok request.uri := by
  unfold rebuild at h
  split at h
  · cases h
  · rename_i uri huri
    cases h
    exact huri

theorem userActivated_rebuild (h : engine.rebuild previous hop body = .ok request) :
    request.userActivated = previous.userActivated := by
  unfold rebuild at h
  split at h
  · cases h
  · cases h
    rfl

end Chromulate.Http.Engine
