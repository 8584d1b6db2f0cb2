import Chromulate.Header.HostSlot
import Chromulate.Http.Hops

/-!
# The request target

Two variables of the loop say where a request goes: the URL, for which the connection is chosen, and
the request's own URI, from which `outgoing_request` takes the target. A redirect sets both. At the
start only the URL is upgraded to `https`, and an HTTP/2 request then says `http` and the old port
on a connection to the `https` origin.

`target_agrees_iff` says when the wire agrees with the URL: on the first hop when the caller's own
URI does, and `Host` if the caller has set it; on every later one, unless the profile spells `host`
twice.
-/

namespace Chromulate.Http

open Redirect Header

/-! ## What the wire says -/

/-- The path and the query of a URL with a host. -/
def pathAndQuery (url : Url) : Str :=
  (url.upToQuery.drop (url.scheme.length + "://".length)).dropWhile (· ≠ '/')

/-- An authority without its userinfo. -/
def withoutUserinfo (authority : Str) : Str :=
  match Text.splitOnce '@' authority with
  | some (_, host) => host
  | none => authority

/-- A URI is the target of a URL. -/
structure Targets (url : Url) (uri : Uri) : Prop where
  scheme : uri.scheme = some url.scheme
  authority : uri.authority.map withoutUserinfo = hostHeaderValue url
  path : uri.pathAndQuery = some (pathAndQuery url)

/-- Header values are one value, and that is the authority of a URL. -/
def NamesHost (url : Url) (values : List HeaderValue) : Prop :=
  ∃ text value, hostHeaderValue url = some text ∧ HeaderValue.fromStr text = some value ∧
    values = [value]

/-- What is on the wire agrees with the URL the connection was chosen for: HTTP/2 has all of it in
the target, HTTP/1.1 the path in the target and the authority in `Host`. -/
def Sent.Agrees (sent : Sent) : Prop :=
  if sent.version = .http2 then Targets sent.url sent.uri
  else
    sent.uri.pathAndQuery = some (pathAndQuery sent.url) ∧
      NamesHost sent.url (sent.headers.getAll .host)

/-- What the crates promise: the text of a URL, read as a URI, is its target. -/
def ReadsBack (crate : UrlCrate) : Prop :=
  ∀ base text url uri, crate.join base text = .ok url →
    url.scheme = "http".toList ∨ url.scheme = "https".toList →
    crate.parseUri (crate.asStr url) = .ok uri → Targets url uri

namespace Engine

/-- The URL a request asks for, once `apply_hsts` has seen it. -/
def FirstUrl (engine : Engine) (request : Request) (requestUrl : Option Url) (hsts : HstsStore)
    (now : SystemTime) (url : Url) : Prop :=
  ∃ start, engine.startUrl request requestUrl = .ok start ∧
    url = hsts.upgrade engine.crate engine.preload start now

/-- The caller's own target and `Host` are right for a URL. -/
def CallerAgrees (engine : Engine) (request : Request) (version : Version) (url : Url) : Prop :=
  if version = .http2 then Targets url request.uri
  else
    request.uri.pathAndQuery.getD "/".toList = pathAndQuery url ∧
      (NamesHost url (request.headers.getAll .host) ∨
        request.headers.getAll .host = [] ∧ engine.headers.givesHost request.options)

variable {engine : Engine} {request : Request} {url : Url} {before : List Visit}
  {state next : State}
  {turn : Turn} {sent : Sent} {protocol : Protocol} {applied : Request}

/-! ## One hop -/

theorem not_namesHost_nil (url : Url) : ¬ NamesHost url [] := by
  rintro ⟨text, value, -, -, h⟩
  cases h

theorem namesHost_iff (hputs : engine.Puts state turn .http11 applied sent) :
    NamesHost state.url (sent.headers.getAll .host) ↔
      NamesHost state.url (state.request.headers.getAll .host) ∨
        state.request.headers.getAll .host = [] ∧
          engine.headers.givesHost state.request.options := by
  obtain ⟨callers, happlies⟩ := applies_of_applyHeaders hputs.applies
  obtain ⟨made, hmade⟩ := happlies.made
  have hgiven : callers.getAll .host = state.request.headers.getAll .host :=
    (happlies.given .host (by decide)).trans (getAll_conditioned state turn .http11 (by decide))
  rw [conditioned_eq] at hmade
  by_cases hset : callers.getAll .host = []
  · obtain ⟨text, value, htext, hvalue, hwire⟩ := HeaderEngine.host_of_apply hmade rfl hset
    have hsent : sent.headers.getAll .host = if engine.headers.givesHost state.request.options then
        [value] else [] := hwire
    rw [← hgiven, hset, hsent]
    by_cases hgives : engine.headers.givesHost state.request.options
    · rw [if_pos hgives]
      exact iff_of_true ⟨text, value, htext, hvalue, rfl⟩ (Or.inr ⟨rfl, hgives⟩)
    · rw [if_neg hgives]
      simp [hgives, not_namesHost_nil]
  · have hwire : sent.headers.getAll .host = callers.getAll .host :=
      HeaderEngine.apply_of_present hmade hset
    rw [hwire, hgiven]
    rw [hgiven] at hset
    simp [hset]

theorem agrees_iff (hputs : engine.Puts state turn protocol applied sent) :
    sent.Agrees ↔
      if sent.version = .http2 then Targets state.url state.request.uri
      else
        state.request.uri.pathAndQuery.getD "/".toList = pathAndQuery state.url ∧
          (NamesHost state.url (state.request.headers.getAll .host) ∨
            state.request.headers.getAll .host = [] ∧
              engine.headers.givesHost state.request.options) := by
  have hurl : sent.url = state.url := by rw [hputs.sends]; rfl
  have huri : sent.uri = outgoingUri protocol state.request.uri := by
    obtain ⟨callers, happlies⟩ := applies_of_applyHeaders hputs.applies
    rw [hputs.sends]
    show outgoingUri protocol applied.uri = _
    rw [happlies.kept, conditioned_eq]
  have hversion : sent.version = protocol.version := by rw [hputs.sends]; rfl
  unfold Sent.Agrees
  rw [hurl, huri, hversion]
  cases protocol with
  | http2 => exact Iff.rfl
  | http11 =>
    rw [if_neg (by decide), if_neg (by decide), namesHost_iff hputs]
    refine and_congr_left' ?_
    simp [outgoingUri]

/-! ## The chain -/

/-- Where a request is aimed: on the first hop where the caller aimed it, later where the redirect
did. -/
structure Aimed (request : Request) (url : Url) (before : List Visit) (state : State) : Prop where
  options : state.request.options = request.options
  first : before = [] → state.url = url ∧ state.request.uri = request.uri ∧
    state.request.headers.getAll .host = request.headers.getAll .host
  later : before ≠ [] → Targets state.url state.request.uri ∧
    state.request.headers.getAll .host = []

theorem Aimed.agrees_iff (h : Aimed request url before state)
    (hputs : engine.Puts state turn protocol applied sent) :
    sent.Agrees ↔ if before = [] then engine.CallerAgrees request sent.version url
      else sent.version = .http2 ∨ engine.headers.givesHost request.options := by
  rw [Engine.agrees_iff hputs, h.options]
  by_cases hbefore : before = []
  · obtain ⟨hurl, huri, hhost⟩ := h.first hbefore
    rw [if_pos hbefore, CallerAgrees, huri, hhost, hurl]
  · obtain ⟨htargets, hhost⟩ := h.later hbefore
    rw [if_neg hbefore, hhost, htargets.path]
    by_cases hversion : sent.version = .http2
    · simp [hversion, htargets]
    · simp [hversion, not_namesHost_nil]

theorem Aimed.step (hreads : ReadsBack engine.crate) {limit : Option Nat}
    (h : Aimed request url before state) (turn : Turn)
    (hnext : (engine.turn limit state turn).2 = .inl next) :
    Aimed request url (before ++ [(engine.turn limit state turn).1]) next := by
  obtain ⟨asked, status, hop, hgoes⟩ := (turn_parts engine limit state turn).2 next hnext
  obtain ⟨status', hop', -, hfollows⟩ := (turn_spec engine limit state turn).follows next hnext
  obtain ⟨body, hrebuilt⟩ := hgoes.rebuilt
  obtain ⟨text, hjoined⟩ := hgoes.joined
  refine ⟨hfollows.options.trans h.options, fun hnil => absurd hnil (by simp), fun _ => ?_⟩
  refine ⟨?_, getAll_host_rebuild hrebuilt⟩
  rw [hgoes.url]
  exact hreads _ _ _ _ hjoined hgoes.followed.scheme (uri_rebuild hrebuilt)

/-- **When the request target agrees with the hop.** -/
theorem target_agrees_iff (engine : Engine) (hreads : ReadsBack engine.crate) (request : Request)
    (requestUrl : Option Url) (hsts : HstsStore) (now : SystemTime) (turns : List Turn) :
    ∀ k visit sent, (engine.run request requestUrl hsts now turns).1[k]? = some visit →
      visit.sent = some sent →
      (sent.Agrees ↔ if k = 0 then ∃ url, engine.FirstUrl request requestUrl hsts now url ∧
          engine.CallerAgrees request sent.version url
        else sent.version = .http2 ∨ engine.headers.givesHost request.options) := by
  intro k visit sent hvisit hsent
  unfold run at hvisit
  cases hurl : engine.startUrl request requestUrl with
  | error error => simp [hurl] at hvisit
  | ok url =>
    rw [hurl] at hvisit
    set first := hsts.upgrade engine.crate engine.preload url now with hfirstUrl
    have hcaller : engine.CallerAgrees request sent.version first ↔
        ∃ url, engine.FirstUrl request requestUrl hsts now url ∧
          engine.CallerAgrees request sent.version url := by
      simp [FirstUrl, hurl, hfirstUrl]
    have hstart : Aimed request first [] (engine.start request url hsts now) :=
      ⟨rfl, fun _ => ⟨rfl, rfl, rfl⟩, fun hne => absurd rfl hne⟩
    obtain ⟨turn, -, hagrees⟩ := Loop.run_rule (Aimed request first)
      (fun before turn visit => ∀ sent, visit.sent = some sent →
        (sent.Agrees ↔ if before = [] then engine.CallerAgrees request sent.version first
          else sent.version = .http2 ∨ engine.headers.givesHost request.options))
      (fun before state turn h _ => ⟨fun sent hsent => by
          obtain ⟨protocol, applied, hputs⟩ := (turn_parts engine _ state turn).1 sent hsent
          exact h.agrees_iff hputs,
        fun next hnext => h.step hreads turn hnext⟩)
      (Loop.meets_true _ turns) hstart hvisit
    rw [hagrees sent hsent]
    have hlength : k < (Loop.run (engine.turn (engine.limitFor request.options))
        (engine.start request url hsts now) turns).1.length :=
      (List.getElem?_eq_some_iff.mp hvisit).1
    have hfirst : (Loop.run (engine.turn (engine.limitFor request.options))
        (engine.start request url hsts now) turns).1.take k = [] ↔ k = 0 := by
      rw [List.take_eq_nil_iff]
      constructor
      · rintro (hzero | hnil)
        · exact hzero
        · rw [hnil] at hlength
          cases hlength
      · exact Or.inl
    exact iff_of_eq (if_congr hfirst (propext hcaller) rfl)

/-- The crates, where every `Location` but one is an error. -/
def oneLocation : UrlCrate :=
  { absoluteUrls with
    join := fun _ text =>
      if text = "https://example.com/new".toList then absoluteUrls.parse text
      else .error "not the one".toList }

theorem readsBack_oneLocation : ReadsBack oneLocation := by
  intro base text url uri hjoin _ huri
  simp only [oneLocation] at hjoin
  split at hjoin
  · rename_i htext
    subst htext
    cases hjoin
    cases huri
    exact ⟨by decide, by decide, by decide⟩
  · cases hjoin

/-- A request for a page of `example.com`, with its own URI. -/
def asking (scheme : String) : Request :=
  { Request.plain .get [] .empty with
    uri := ⟨some scheme.toList, some "example.com".toList, some "/old".toList⟩ }

/-- A page that has moved: both requests say where they go. -/
theorem target_agrees_moved :
    let engine := { small with crate := oneLocation }
    let visits := (engine.run (asking "https") (some (.plain "https" "example.com" "/old"))
      HstsStore.new 0
      [Turn.answering 302 [(.location, .fromStatic "https://example.com/new")],
        Turn.answering 200 []]).1
    (visits.map fun visit => visit.sent.map fun sent =>
        (sent.uri.pathAndQuery, sent.headers.getAll .host)) =
        [some (some "/old".toList, [.fromStatic "example.com"]),
          some (some "/new".toList, [.fromStatic "example.com"])] ∧
      ∀ visit sent, visits[1]? = some visit → visit.sent = some sent → sent.Agrees := by
  refine ⟨by decide +kernel, fun visit sent hvisit hsent => ?_⟩
  exact (target_agrees_iff { small with crate := oneLocation } readsBack_oneLocation _ _ _ _ _ 1
    visit sent hvisit hsent).mpr (Or.inr (by decide +kernel))

/-- A host with a policy, asked for by an `http` URL over HTTP/2: the connection is for `https`, and
the target says `http`. -/
theorem upgraded_but_not_the_target :
    let hsts := HstsStore.new.record "example.com".toList "max-age=100".toList true 0
    let visits := (small.run (asking "http") (some (.plain "http" "example.com" "/old")) hsts 1
      [{ Turn.answering 200 [] with connection := .ok .http2 }]).1
    (visits.map fun visit => visit.sent.map fun sent =>
        (sent.version, sent.url.scheme, sent.uri.scheme)) =
        [some (.http2, "https".toList, some "http".toList)] ∧
      ∀ visit ∈ visits, ∀ sent ∈ visit.sent, ¬ sent.Agrees := by
  have hall : ∀ visit ∈ (small.run (asking "http") (some (.plain "http" "example.com" "/old"))
      (HstsStore.new.record "example.com".toList "max-age=100".toList true 0) 1
      [{ Turn.answering 200 [] with connection := .ok .http2 }]).1, ∀ sent ∈ visit.sent,
      sent.version = .http2 ∧ sent.uri.scheme ≠ some sent.url.scheme := by
    decide +kernel
  refine ⟨by decide +kernel, fun visit hvisit sent hsent hagrees => ?_⟩
  obtain ⟨hversion, hscheme⟩ := hall visit hvisit sent hsent
  rw [Sent.Agrees, if_pos hversion] at hagrees
  exact hscheme hagrees.scheme

end Engine

end Chromulate.Http
