import Chromulate.Http.Engine

/-!
# What a redirect chain carries along

Each hop's request is rebuilt from the one before, which was itself rebuilt. Here is what is left
of the caller's request on the wire of the `k`-th hop.

* Credentials are those the caller set while all hops so far have one origin, and gone for good
  from the first hop that leaves it. A cookie is then the jar's for the hop's own URL, if any.
* Method and body are the Fetch standard's rule folded over the statuses on the way.
* At most as many redirects are followed as the limit says, and the loop ends.
* Of the headers that describe a body, `rebuild` drops three with it. The caller's
  `Content-Encoding`, `Content-Language` and `Content-Location` stay on the request without one.

`credentials_stay_home` is the four together; `encoding_outlives_the_body` is a run for the last.
-/

namespace Chromulate.Http

open Redirect

/-! ## The Fetch standard -/

/-- All of some URLs have one origin. -/
def SameOrigin (urls : List Url) : Prop :=
  ∃ origin, ∀ url ∈ urls, Origin.ofUrl url = some origin

/-- The Fetch standard's rule for one redirect: the method, and the body with it. -/
def fetchRule (asked : Method × Body) (status : StatusCode) : Method × Body :=
  let method :=
    if status = 303 then if asked.1 = .head then .head else .get
    else if (status = 301 ∨ status = 302) ∧ asked.1 = .post then .get
    else asked.1
  (method, if method = asked.1 then asked.2 else .empty)

/-- The headers that describe a body: the Fetch standard's request-body headers, and the two that
frame it. -/
def contentHeaders : List HeaderName :=
  [.contentEncoding, .contentLanguage, .contentLocation, .contentLength, .contentType,
    .transferEncoding]

/-- Those of them that `rebuild` leaves. -/
def leftHeaders : List HeaderName := [.contentEncoding, .contentLanguage, .contentLocation]

theorem sameOrigin_concat {urls : List Url} {current next : Url} :
    SameOrigin (urls ++ [current] ++ [next]) ↔
      SameOrigin (urls ++ [current]) ∧ crossesOrigin current next = false := by
  rw [crossesOrigin_eq_false]
  constructor
  · rintro ⟨origin, h⟩
    refine ⟨⟨origin, fun url hurl => h url (List.mem_append_left _ hurl)⟩, origin, ?_, ?_⟩
    · exact h current (by simp)
    · exact h next (by simp)
  · rintro ⟨⟨origin, h⟩, other, hcurrent, hnext⟩
    have heq : origin = other :=
      Option.some.inj ((h current (by simp)).symm.trans hcurrent)
    refine ⟨origin, fun url hurl => ?_⟩
    rcases List.mem_append.mp hurl with hurl | hurl
    · exact h url hurl
    · rw [List.mem_singleton.mp hurl, hnext, heq]

theorem methodAfter_get (status : StatusCode) : methodAfter status .get = .get := by
  simp [methodAfter]

theorem fetchRule_eq {status : StatusCode} (asked : Method × Body) :
    fetchRule asked status = (methodAfter status asked.1,
      if methodAfter status asked.1 ≠ asked.1 then .empty else asked.2) := by
  have hmethod : (fetchRule asked status).1 = methodAfter status asked.1 := by
    unfold fetchRule methodAfter
    by_cases h303 : status = 303
    · subst h303
      cases asked.1 <;> simp
    · simp [h303]
  refine Prod.ext hmethod ?_
  show (if (fetchRule asked status).1 = asked.1 then asked.2 else .empty) = _
  rw [hmethod]
  split_ifs <;> simp_all

/-! ## Which headers a redirect drops -/

theorem carried_credentials : ∀ name ∈ credentialHeaders, carried name := by decide +kernel

theorem carried_content : ∀ name ∈ contentHeaders, carried name := by decide +kernel

variable {name : HeaderName}

theorem notMem_bodyHeaders_of_credential (h : name ∈ credentialHeaders) :
    name ∉ Engine.bodyHeaders := by
  revert name
  decide +kernel

theorem drops_credential (h : name ∈ credentialHeaders) (hop : Hop) :
    Engine.drops hop name = hop.crossOrigin := by
  simp [Engine.drops, h, notMem_bodyHeaders_of_credential h]

theorem drops_body (h : name ∈ Engine.bodyHeaders) (hop : Hop) :
    Engine.drops hop name = hop.dropBody := by
  have hcredential : name ∉ credentialHeaders := by
    revert name
    decide +kernel
  simp [Engine.drops, h, hcredential]

theorem drops_left (h : name ∈ leftHeaders) (hop : Hop) : Engine.drops hop name = false := by
  have hother : name ∉ credentialHeaders ∧ name ∉ Engine.bodyHeaders := by
    revert name
    decide +kernel
  simp [Engine.drops, hother.1, hother.2]

theorem mem_contentHeaders :
    name ∈ contentHeaders ↔ name ∈ leftHeaders ∨ name ∈ Engine.bodyHeaders :=
  (List.mem_append : name ∈ leftHeaders ++ Engine.bodyHeaders ↔ _)

/-! ## The invariant -/

namespace Engine

/-- What the caller's request has become after the hops on record. -/
structure Become (request : Request) (limit : Option Nat) (before : List Visit) (state : State) :
    Prop where
  hops : state.chain.length = before.length
  within : before.length ≤ limit.getD 0
  options : state.request.options = request.options
  asked : (state.request.method, state.request.body) =
    (before.filterMap Visit.status).foldl fetchRule (request.method, request.body)
  method : state.request.method = request.method ∨ state.request.method = .get
  home : before = [] ∨ SameOrigin (before.map Visit.url ++ [state.url]) →
    ∀ name ∈ credentialHeaders, state.request.headers.getAll name = request.headers.getAll name
  away : before ≠ [] → ¬ SameOrigin (before.map Visit.url ++ [state.url]) →
    ∀ name ∈ credentialHeaders, state.request.headers.getAll name = []
  body : ∀ name ∈ bodyHeaders, state.request.headers.getAll name =
    if state.request.method = request.method then request.headers.getAll name else []
  left : ∀ name ∈ leftHeaders,
    state.request.headers.getAll name = request.headers.getAll name

theorem become_start (engine : Engine) (request : Request) (limit : Option Nat) (url : Url)
    (hsts : HstsStore) (now : SystemTime) :
    Become request limit [] (engine.start request url hsts now) where
  hops := rfl
  within := Nat.zero_le _
  options := rfl
  asked := rfl
  method := Or.inl rfl
  home _ _ _ := rfl
  away h := absurd rfl h
  body _ _ := (if_pos rfl).symm
  left _ _ := rfl

variable {request : Request} {limit : Option Nat} {before : List Visit} {state next : State}
  {visit : Visit} {status : StatusCode} {hop : Hop}

theorem Become.credentials (h : Become request limit before state)
    (hf : Follows limit state status hop next) (hurl : visit.url = state.url) :
    (SameOrigin ((before ++ [visit]).map Visit.url ++ [next.url]) →
      ∀ name ∈ credentialHeaders,
        next.request.headers.getAll name = request.headers.getAll name) ∧
    (¬ SameOrigin ((before ++ [visit]).map Visit.url ++ [next.url]) →
      ∀ name ∈ credentialHeaders, next.request.headers.getAll name = []) := by
  have hnext : ∀ name ∈ credentialHeaders, next.request.headers.getAll name =
      if hop.crossOrigin then [] else state.request.headers.getAll name := fun name hname => by
    rw [hf.headers name (carried_credentials name hname), drops_credential hname]
  rw [List.map_append, List.map_cons, List.map_nil, hurl, sameOrigin_concat, hf.url,
    ← hf.followed.crossOrigin_eq]
  constructor
  · rintro ⟨hsame, hcross⟩ name hname
    rw [hnext name hname, hcross]
    exact h.home (Or.inr hsame) name hname
  · intro hnot name hname
    rw [hnext name hname]
    split_ifs with hcross
    · rfl
    · -- the origin was left before this hop, so this is not the first one
      rw [Bool.not_eq_true] at hcross
      have haway : ¬ SameOrigin (before.map Visit.url ++ [state.url]) := fun hsame =>
        hnot ⟨hsame, hcross⟩
      refine h.away ?_ haway name hname
      rintro rfl
      rw [hf.followed.crossOrigin_eq, crossesOrigin_eq_false] at hcross
      obtain ⟨origin, hcurrent, -⟩ := hcross
      exact haway ⟨origin, by simpa using hcurrent⟩

/-- The body's headers over one redirect: a method once rewritten is `GET` and stays so. -/
theorem Become.bodyHeaders (h : Become request limit before state)
    (hf : Follows limit state status hop next) :
    ∀ name ∈ bodyHeaders, next.request.headers.getAll name =
      if next.request.method = request.method then request.headers.getAll name else [] := by
  intro name hname
  have hcontent : carried name := carried_content name (mem_contentHeaders.mpr (Or.inr hname))
  rw [hf.headers name hcontent, drops_body hname, h.body name hname, hf.method,
    hf.followed.method_eq]
  by_cases hchanged : methodAfter status state.request.method = state.request.method
  · have hkept : hop.dropBody = false := by
      rw [← Bool.not_eq_true, hf.followed.dropBody_iff]
      exact not_not.mpr hchanged
    simp [hkept, hchanged]
  · have hdropped : hop.dropBody = true := hf.followed.dropBody_iff.mpr hchanged
    have hcaller : state.request.method = request.method := by
      rcases h.method with hsame | hget
      · exact hsame
      · rw [hget, methodAfter_get] at hchanged
        exact absurd rfl hchanged
    rw [hcaller] at hchanged ⊢
    simp [hdropped, hchanged]

/-- **The step.** -/
theorem Become.step (h : Become request limit before state)
    (hf : Follows limit state status hop next) (hurl : visit.url = state.url)
    (hstatus : visit.status = some status) : Become request limit (before ++ [visit]) next where
  hops := by
    rw [hf.chain, List.length_append, List.length_append, h.hops]
    rfl
  within := by
    obtain ⟨most, hlimit, hless⟩ := hf.followed.within
    rw [h.hops] at hless
    rw [hlimit, List.length_append]
    exact hless
  options := hf.options.trans h.options
  asked := by
    have hstatuses : (before ++ [visit]).filterMap Visit.status =
        before.filterMap Visit.status ++ [status] := by
      rw [List.filterMap_append, List.filterMap_cons_some hstatus, List.filterMap_nil]
    rw [hstatuses, List.foldl_append, ← h.asked, List.foldl_cons, List.foldl_nil, fetchRule_eq,
      hf.method, hf.followed.method_eq, hf.body]
    refine Prod.ext rfl ?_
    exact if_congr hf.followed.dropBody_iff rfl rfl
  method := by
    rw [hf.method, hf.followed.method_eq]
    rcases h.method with hsame | hget
    · rw [hsame]
      unfold methodAfter
      split_ifs <;> simp
    · rw [hget, methodAfter_get]
      exact Or.inr rfl
  home hwhere := by
    refine (h.credentials hf hurl).1 (hwhere.resolve_left ?_)
    simp
  away _ := (h.credentials hf hurl).2
  body := h.bodyHeaders hf
  left name hname := by
    have hcontent : carried name := carried_content name (mem_contentHeaders.mpr (Or.inl hname))
    rw [hf.headers name hcontent, drops_left hname]
    exact h.left name hname

/-! ## On the wire -/

/-- What is on the wire of a hop, given the hops before it and the session of its route. -/
structure Carries (request : Request) (before : List Visit) (session : Session) (sent : Sent) :
    Prop where
  /-- At home the caller's credentials, and the jar's cookie only in place of none. -/
  home : SameOrigin (before.map Visit.url ++ [sent.url]) →
    (∀ name ∈ credentialHeaders, name ≠ .cookie →
      sent.headers.getAll name = request.headers.getAll name) ∧
    sent.headers.getAll .cookie = request.headers.getAll .cookie ++
      (if request.headers.containsKey .cookie then none
        else session.cookiesFor sent.url request.options.cookieContext).toList
  /-- Away nothing of them, and the jar's cookie. -/
  away : ¬ SameOrigin (before.map Visit.url ++ [sent.url]) →
    (∀ name ∈ credentialHeaders, name ≠ .cookie → sent.headers.getAll name = []) ∧
    sent.headers.getAll .cookie =
      (session.cookiesFor sent.url request.options.cookieContext).toList
  asked : (sent.method, sent.body) =
    (before.filterMap Visit.status).foldl fetchRule (request.method, request.body)
  /-- The headers of a body go with it, unless the caller set one that `rebuild` leaves. -/
  content : (∀ name ∈ contentHeaders, sent.headers.getAll name =
      if sent.method = request.method then request.headers.getAll name else []) ↔
    sent.method = request.method ∨ ∀ name ∈ leftHeaders, request.headers.getAll name = []

/-- Of the headers of a body the request has the caller's, or none: unless the method was
rewritten and the caller set one that `rebuild` leaves. -/
theorem Become.content_iff (h : Become request limit before state) :
    (∀ name ∈ contentHeaders, state.request.headers.getAll name =
      if state.request.method = request.method then request.headers.getAll name else []) ↔
    state.request.method = request.method ∨
      ∀ name ∈ leftHeaders, request.headers.getAll name = [] := by
  constructor
  · intro hall
    by_cases hsame : state.request.method = request.method
    · exact Or.inl hsame
    · refine Or.inr fun name hname => ?_
      have hgone := hall name (mem_contentHeaders.mpr (Or.inl hname))
      rw [if_neg hsame, h.left name hname] at hgone
      exact hgone
  · intro hcase name hname
    rcases mem_contentHeaders.mp hname with hleft | hdropped
    · rw [h.left name hleft]
      rcases hcase with hsame | hnone
      · rw [if_pos hsame]
      · rw [hnone name hleft, ite_self]
    · exact h.body name hdropped

theorem carries_of_sends {session : Session} {sent : Sent}
    (h : Become request limit before state) (hs : Sends session state sent) :
    Carries request before session sent := by
  obtain ⟨origin, horigin⟩ := hs.origin
  have hcookie : HeaderName.cookie ∈ credentialHeaders := by decide
  have hwire : ∀ name ∈ credentialHeaders, name ≠ .cookie →
      sent.headers.getAll name = state.request.headers.getAll name := fun name hname hne =>
    hs.headers name (carried_credentials name hname) hne
  have hbody : ∀ name ∈ contentHeaders,
      sent.headers.getAll name = state.request.headers.getAll name := fun name hname =>
    hs.headers name (carried_content name hname) (by rintro rfl; revert hname; decide)
  have hjar : sent.headers.getAll .cookie = state.request.headers.getAll .cookie ++
      (if state.request.headers.containsKey .cookie then none
        else session.cookiesFor sent.url request.options.cookieContext).toList := by
    rw [hs.cookie, hs.url, ← h.options]
    rfl
  refine ⟨fun hsame => ?_, fun hnot => ?_, ?_, ?_⟩
  · have hhome := h.home (Or.inr (hs.url ▸ hsame))
    refine ⟨fun name hname hne => (hwire name hname hne).trans (hhome name hname), ?_⟩
    rw [hjar, HeaderMap.containsKey, hhome .cookie hcookie]
    rfl
  · have haway := h.away ?_ (hs.url ▸ hnot)
    · refine ⟨fun name hname hne => (hwire name hname hne).trans (haway name hname), ?_⟩
      rw [hjar, HeaderMap.containsKey, haway .cookie hcookie]
      rfl
    · -- the first hop is at home: it has an origin
      rintro rfl
      exact hnot ⟨origin, by simpa [hs.url] using horigin⟩
  · rw [hs.method, hs.body]
    exact h.asked
  · rw [hs.method, ← h.content_iff]
    exact forall₂_congr fun name hname => by rw [hbody name hname]

/-- One turn of the loop, from a state the caller's request has become. -/
theorem Become.turn {engine : Engine} (h : Become request limit before state) (turn : Turn) :
    (∀ sent, (engine.turn limit state turn).1.sent = some sent →
      Carries request before turn.session sent) ∧
    ∀ next, (engine.turn limit state turn).2 = .inl next →
      Become request limit (before ++ [(engine.turn limit state turn).1]) next := by
  have hspec := turn_spec engine limit state turn
  constructor
  · intro sent hsent
    exact carries_of_sends h (hspec.sends sent hsent)
  · intro next hnext
    obtain ⟨status, hop, hstatus, hf⟩ := hspec.follows next hnext
    exact h.step hf hspec.url hstatus

/-- **What a run follows, and what each hop carries.** -/
theorem credentials_stay_home (engine : Engine) (request : Request) (requestUrl : Option Url)
    (hsts : HstsStore) (now : SystemTime) (turns : List Turn) :
    let visits := (engine.run request requestUrl hsts now turns).1
    let most := (engine.limitFor request.options).getD 0
    visits.length ≤ most + 1 ∧
    (most < turns.length → (engine.run request requestUrl hsts now turns).2.isSome) ∧
    ∀ k visit sent, visits[k]? = some visit → visit.sent = some sent →
      ∃ turn, turns[k]? = some turn ∧ Carries request (visits.take k) turn.session sent := by
  dsimp only
  unfold run
  cases hurl : engine.startUrl request requestUrl with
  | error error => exact ⟨Nat.zero_le _, fun _ => rfl, fun k visit sent h => by simp at h⟩
  | ok url =>
    dsimp only
    generalize hlimit : engine.limitFor request.options = limit
    have hstart := become_start engine request limit url hsts now
    have hstep : ∀ before state turn, Become request limit before state → ∀ next,
        (engine.turn limit state turn).2 = .inl next →
          Become request limit (before ++ [(engine.turn limit state turn).1]) next :=
      fun before state turn h => (h.turn turn).2
    have hbound : ∀ before state, Become request limit before state →
        before.length ≤ limit.getD 0 := fun before state h => h.within
    refine ⟨?_, ?_, ?_⟩
    · simpa using Loop.length_run_le _ hstep hbound turns [] hstart
    · intro henough
      exact Loop.isSome_run _ hstep hbound [] hstart (by simpa using henough)
    · intro k visit sent hvisit hsent
      obtain ⟨turn, hturn, hcarries⟩ := Loop.run_rule (Become request limit)
        (fun before turn visit => ∀ sent, visit.sent = some sent →
          Carries request before turn.session sent)
        (fun before state turn h _ => h.turn turn) (Loop.meets_true _ turns) hstart hvisit
      exact ⟨turn, hturn, hcarries sent hsent⟩

/-- A token is sent once: not to the other host the redirect names, and not on the way back. -/
theorem token_sent_once :
    let request := Request.plain .post [(.authorization, .fromStatic "Bearer t")]
      (.fixed (some [1, 2]))
    let turns :=
      [Turn.answering 303 [(.location, .fromStatic "https://other.example/")],
        Turn.answering 307 [(.location, .fromStatic "https://example.com/")],
        Turn.answering 200 []]
    let url := Url.plain "https" "example.com" "/"
    let visits := (small.run request (some url) HstsStore.new 0 turns).1
    visits.map (fun visit => visit.sent.map fun sent =>
        (sent.method, sent.body, (sent.headers.getAll .authorization).length)) =
      [some (.post, .fixed (some [1, 2]), 1), some (.get, .empty, 0), some (.get, .empty, 0)] ∧
    ∀ visit sent, visits[2]? = some visit → visit.sent = some sent →
      ∃ turn, turns[2]? = some turn ∧ Carries request (visits.take 2) turn.session sent := by
  refine ⟨by decide +kernel, ?_⟩
  intro visit sent
  exact (credentials_stay_home small _ _ _ _ _).2.2 2 visit sent

/-- A `POST` of gzip-coded bytes answered with `303`: the `GET` that follows has no body, and says
that it is coded. -/
theorem encoding_outlives_the_body :
    let request := Request.plain .post [(.contentEncoding, .fromStatic "gzip")]
      (.fixed (some [31, 139]))
    let turns :=
      [Turn.answering 303 [(.location, .fromStatic "https://example.com/done")],
        Turn.answering 200 []]
    let url := Url.plain "https" "example.com" "/"
    (small.run request (some url) HstsStore.new 0 turns).1.map (fun visit =>
        visit.sent.map fun sent =>
          (sent.method, sent.body, sent.headers.getAll .contentEncoding)) =
      [some (.post, .fixed (some [31, 139]), [.fromStatic "gzip"]),
        some (.get, .empty, [.fromStatic "gzip"])] := by
  decide +kernel

end Engine

end Chromulate.Http
