import Chromulate.Header.Callers
import Chromulate.Http.Credentials
import Chromulate.Http.Hops
import Chromulate.Lib.Standing

/-!
# Headers computed for a hop

A hop should send what the header engine computes for its own URL and method from the caller's own
headers. The engine writes what it computes into the request, and the redirect keeps it: on the next
hop it is there as if the caller had set it. So what was computed once under a name is sent on every
later hop, whatever is right there: `sec-fetch-site` says `same-origin` to another site, and a
client hint granted by one origin goes to the next.

`hops_independent_iff`: every hop sends what is computed afresh exactly when no name with a computed
value would get another one on a later hop. `Host` is the exception, since `rebuild` removes it.
-/

namespace Chromulate.Http

open Redirect Header Standing

/-! ## The caller's own headers -/

/-- All hops so far, and the next one, have the origin of the first. -/
def atHome (before : List Visit) (url : Url) : Bool :=
  match before with
  | [] => true
  | first :: _ => (before.map Visit.url ++ [url]).all fun other => !crossesOrigin first.url other

/-- Whether a header the caller set is still there on a hop: credentials stay at home, the headers
of a body go with it, and `Host` is for the first hop. -/
def isOwn (request : Request) (before : List Visit) (sent : Sent) (name : HeaderName) : Bool :=
  (name ∉ credentialHeaders || atHome before sent.url) &&
    (name ∉ Engine.bodyHeaders || sent.method = request.method) &&
    (name ≠ .host || before.isEmpty)

/-- The caller's own headers on a hop. -/
def ownHeaders (request : Request) (before : List Visit) (sent : Sent) : HeaderMap :=
  request.headers.filter fun field => isOwn request before sent field.1

/-- The request the `k`-th turn has sent. -/
def sentAt (visits : List Visit) (k : Nat) : Option Sent := visits[k]?.bind Visit.sent

namespace Engine

variable (engine : Engine)

/-- What `HeaderEngine::apply` makes for a hop of the caller's own headers. -/
def afresh (request : Request) (before : List Visit) (turn : Turn) (sent : Sent) :
    Except Error (HeaderMap × HeaderMap) :=
  engine.headers.apply engine.crate ⟨sent.method, sent.version, request.userActivated⟩
    (ownHeaders request before sent) sent.url request.options turn.session.granted

/-- What it makes for the `k`-th turn of a run, in wire order. -/
def afreshAt (request : Request) (turns : List Turn) (visits : List Visit) (k : Nat) :
    Option HeaderMap := do
  let turn ← turns[k]?
  let sent ← sentAt visits k
  let made ← (engine.afresh request (visits.take k) turn sent).toOption
  some made.2

/-- What it makes under a name. -/
def freshUnder (request : Request) (turns : List Turn) (visits : List Visit) (name : HeaderName)
    (k : Nat) : List HeaderValue :=
  ((engine.afreshAt request turns visits k).map fun fresh => fresh.getAll name).getD []

end Engine

theorem atHome_iff {before : List Visit} {url : Url} :
    atHome before url ↔ before = [] ∨ SameOrigin (before.map Visit.url ++ [url]) := by
  cases before with
  | nil => simp [atHome]
  | cons first rest =>
    simp only [atHome, List.all_eq_true, Bool.not_eq_true', reduceCtorEq, false_or]
    constructor
    · intro h
      obtain ⟨origin, horigin, -⟩ := crossesOrigin_eq_false.mp (h first.url (by simp))
      refine ⟨origin, fun other hother => ?_⟩
      obtain ⟨origin', horigin', hsame⟩ := crossesOrigin_eq_false.mp (h other hother)
      rw [hsame, ← horigin', horigin]
    · rintro ⟨origin, h⟩ other hother
      exact crossesOrigin_eq_false.mpr ⟨origin, h first.url (by simp), h other hother⟩

theorem getAll_ownHeaders (request : Request) (before : List Visit) (sent : Sent)
    (name : HeaderName) :
    (ownHeaders request before sent).getAll name =
      if isOwn request before sent name then request.headers.getAll name else [] :=
  HeaderMap.getAll_filter (isOwn request before sent) request.headers name

/-- A name whose values the header engine computes anew for every hop, and whose values stay. -/
def computed (name : HeaderName) : Bool := supplies name && name ≠ .host

variable {name : HeaderName}

theorem notMem_of_computed {names : List HeaderName}
    (hnames : ∀ other ∈ names, computed other = false) (h : computed name) : name ∉ names := by
  intro hmem
  rw [hnames name hmem] at h
  cases h

theorem ne_host_of_computed (h : computed name) : name ≠ .host := by
  rintro rfl
  exact absurd h (by decide +kernel)

theorem notMem_credentials_of_computed (h : computed name) : name ∉ credentialHeaders :=
  notMem_of_computed (by decide +kernel) h

theorem notMem_bodyHeaders_of_computed (h : computed name) : name ∉ Engine.bodyHeaders :=
  notMem_of_computed (by decide +kernel) h

theorem notMem_validatorNames_of_computed (h : computed name) : name ∉ validatorNames :=
  notMem_of_computed (by decide +kernel) h

theorem ne_cookie_of_computed (h : computed name) : name ≠ .cookie := by
  rintro rfl
  exact absurd h (by decide +kernel)

theorem isOwn_of_computed (h : computed name) (request : Request) (before : List Visit)
    (sent : Sent) : isOwn request before sent name := by
  simp [isOwn, notMem_credentials_of_computed h, notMem_bodyHeaders_of_computed h,
    ne_host_of_computed h]

theorem getAll_own_of_computed (h : computed name) (request : Request) (before : List Visit)
    (sent : Sent) : (ownHeaders request before sent).getAll name = request.headers.getAll name := by
  rw [getAll_ownHeaders, if_pos (isOwn_of_computed h request before sent)]

namespace Engine

variable {engine : Engine} {request : Request} {limit : Option Nat} {before : List Visit}
  {state next : State} {turn : Turn} {visit : Visit} {sent : Sent}

/-! ## The invariant -/

/-- What was sent under a name, turn by turn. -/
def written (visits : List Visit) (name : HeaderName) : List (Option (List HeaderValue)) :=
  visits.map fun visit => visit.sent.map fun sent => sent.headers.getAll name

theorem written_concat (visits : List Visit) (visit : Visit) (name : HeaderName) :
    written (visits ++ [visit]) name =
      written visits name ++ [visit.sent.map fun sent => sent.headers.getAll name] :=
  List.map_append

/-- What is on a request after the hops on record. -/
structure Stuck (engine : Engine) (request : Request) (limit : Option Nat) (before : List Visit)
    (state : State) : Prop where
  become : Become request limit before state
  userActivated : state.request.userActivated = request.userActivated
  plain : ∀ name, carried name → name ∉ credentialHeaders → name ∉ bodyHeaders →
    state.request.headers.getAll name = request.headers.getAll name
  host : state.request.headers.getAll .host =
    if before.isEmpty then request.headers.getAll .host else []
  /-- What the caller set stays, and so does what was computed. -/
  set : ∀ name, computed name → request.headers.getAll name ≠ [] →
    state.request.headers.getAll name = request.headers.getAll name
  unset : ∀ name, computed name → request.headers.getAll name = [] →
    state.request.headers.getAll name = standing (written before name)
  sound : ∀ name, computed name → request.headers.getAll name = [] →
    state.request.headers.getAll name ≠ [] → engine.headers.Sound request.options name

theorem stuck_start (request : Request) (limit : Option Nat) (url : Url) (hsts : HstsStore)
    (now : SystemTime) : Stuck engine request limit [] (engine.start request url hsts now) where
  become := become_start engine request limit url hsts now
  userActivated := rfl
  plain _ _ _ _ := rfl
  host := rfl
  set _ _ _ := rfl
  unset _ _ hnone := hnone
  sound _ _ hnone hsome := absurd hnone hsome

/-! ## One hop -/

/-- What a hop sends, beside what is computed for it afresh. -/
structure SendsAfresh (engine : Engine) (request : Request) (before : List Visit) (turn : Turn)
    (sent : Sent) (made : HeaderMap × HeaderMap) : Prop where
  afresh : engine.afresh request before turn sent = .ok made
  same : ∀ name, name ≠ .cookie → name ∉ validatorNames →
    (computed name = false ∨ request.headers.getAll name ≠ []) →
    sent.headers.getAll name = made.2.getAll name
  stays : ∀ name, computed name → request.headers.getAll name = [] →
    sent.headers.getAll name =
      if standing (written before name) = [] then made.2.getAll name
      else standing (written before name)

variable {name : HeaderName} {asked : Request}

/-- The state has the caller's own headers, and what was computed before. -/
theorem Stuck.own (h : Stuck engine request limit before state) (hurl : sent.url = state.url)
    (hmethod : sent.method = state.request.method) (hcookie : name ≠ .cookie)
    (hvalidator : name ∉ validatorNames)
    (hname : computed name = false ∨ request.headers.getAll name ≠ []) :
    state.request.headers.getAll name = (ownHeaders request before sent).getAll name := by
  by_cases hcomputed : computed name
  · rw [getAll_own_of_computed hcomputed]
    refine h.set name hcomputed (hname.resolve_left ?_)
    simp [hcomputed]
  · rw [getAll_ownHeaders]
    by_cases hhost : name = .host
    · subst hhost
      rw [h.host]
      cases before <;> rfl
    · have hcarried : carried name := carried_iff.mpr
        ⟨by simpa [computed, hhost] using hcomputed, hvalidator⟩
      by_cases hcredential : name ∈ credentialHeaders
      · have hbody : name ∉ bodyHeaders := notMem_bodyHeaders_of_credential hcredential
        have hown : isOwn request before sent name = atHome before sent.url := by
          simp [isOwn, hcredential, hbody, hhost]
        rw [hown, hurl]
        by_cases hhome : atHome before state.url
        · rw [if_pos hhome]
          exact h.become.home (atHome_iff.mp hhome) name hcredential
        · rw [if_neg hhome]
          rw [atHome_iff, not_or] at hhome
          exact h.become.away hhome.1 hhome.2 name hcredential
      · by_cases hbody : name ∈ bodyHeaders
        · rw [h.become.body name hbody]
          simp [isOwn, hcredential, hbody, hhost, hmethod]
        · rw [h.plain name hcarried hcredential hbody]
          simp [isOwn, hcredential, hbody, hhost]

theorem Stuck.sendsAfresh (h : Stuck engine request limit before state) {protocol : Protocol}
    {applied : Request} (hputs : engine.Puts state turn protocol applied sent) :
    ∃ made, SendsAfresh engine request before turn sent made := by
  obtain ⟨callers, happlies⟩ := applies_of_applyHeaders hputs.applies
  obtain ⟨⟨map, hmade⟩, hgiven, hkept, -⟩ := happlies
  have hurl : sent.url = state.url := by rw [hputs.sends]; rfl
  have hversion : sent.version = protocol.version := by rw [hputs.sends]; rfl
  have hmethod : sent.method = state.request.method := by
    rw [hputs.sends]
    show applied.method = _
    rw [hkept, conditioned_eq]
  rw [conditioned_eq] at hmade
  dsimp only at hmade
  rw [h.userActivated, h.become.options, ← hmethod, ← hurl, ← hversion] at hmade
  -- under which names the request has what the caller's own headers have
  have hstate : ∀ name, name ≠ .cookie → name ∉ validatorNames →
      callers.getAll name = state.request.headers.getAll name := fun name hcookie hvalidator =>
    (hgiven name hcookie).trans (getAll_conditioned state turn protocol hvalidator)
  have hsame : ∀ name, name ≠ .cookie → name ∉ validatorNames →
      (computed name = false ∨ request.headers.getAll name ≠ []) →
      callers.getAll name = (ownHeaders request before sent).getAll name :=
    fun name hcookie hvalidator hname =>
      (hstate name hcookie hvalidator).trans (h.own hurl hmethod hcookie hvalidator hname)
  have hsound : ∀ name, (ownHeaders request before sent).getAll name = [] →
      callers.getAll name = [] ∨ engine.headers.Sound request.options name := by
    intro name hown
    by_cases hsupplies : supplies name
    · by_cases hhost : name = .host
      · exact Or.inr (hhost ▸ HeaderEngine.sound_host request.options)
      · have hname : computed name := by simp [computed, hsupplies, hhost]
        have hnone : request.headers.getAll name = [] := by
          rwa [getAll_own_of_computed hname] at hown
        rw [hstate name (ne_cookie_of_computed hname) (notMem_validatorNames_of_computed hname)]
        by_cases hempty : state.request.headers.getAll name = []
        · exact Or.inl hempty
        · exact Or.inr (h.sound name hname hnone hempty)
    · exact Or.inr (HeaderEngine.sound_of_not_supplies (by simpa using hsupplies))
  obtain ⟨made, hafresh⟩ := HeaderEngine.exists_apply hmade hsound
  refine ⟨made, hafresh, ?_, ?_⟩
  · intro name hcookie hvalidator hname
    exact HeaderEngine.apply_congr hmade hafresh (hsame name hcookie hvalidator hname)
  · intro name hname hnone
    have hstands : callers.getAll name = standing (written before name) :=
      (hstate name (ne_cookie_of_computed hname) (notMem_validatorNames_of_computed hname)).trans
        (h.unset name hname hnone)
    split_ifs with hempty
    · refine HeaderEngine.apply_congr hmade hafresh ?_
      rw [hstands, hempty, getAll_own_of_computed hname, hnone]
    · rw [← hstands] at hempty ⊢
      exact HeaderEngine.apply_of_present hmade hempty

/-! ## From hop to hop -/

theorem drops_of_computed (h : computed name) (hop : Hop) : drops hop name = false := by
  simp [drops, notMem_credentials_of_computed h, notMem_bodyHeaders_of_computed h]

/-- The last form of a request has what was sent, or else what it had. -/
theorem getAll_asked {out : Option Sent} (h : engine.Asked state turn out asked)
    (hcookie : name ≠ .cookie) (hvalidator : name ∉ validatorNames) :
    asked.headers.getAll name =
      (out.map fun sent => sent.headers.getAll name).getD (state.request.headers.getAll name) := by
  cases h with
  | served => exact getAll_cached state turn hvalidator
  | sent hputs =>
    obtain ⟨callers, happlies⟩ := applies_of_applyHeaders hputs.applies
    exact happlies.written name hcookie

theorem userActivated_asked {out : Option Sent} (h : engine.Asked state turn out asked) :
    asked.userActivated = state.request.userActivated := by
  cases h with
  | served => rw [cached_eq]
  | sent hputs =>
    obtain ⟨callers, happlies⟩ := applies_of_applyHeaders hputs.applies
    rw [happlies.kept, conditioned_eq]

/-- What a redirect keeps under a name whose values are computed. -/
theorem getAll_next {status : StatusCode} {hop : Hop}
    (h : engine.GoesOn limit state turn visit asked status hop next) (hname : computed name) :
    next.request.headers.getAll name = (visit.sent.map fun sent => sent.headers.getAll name).getD
      (state.request.headers.getAll name) := by
  obtain ⟨body, hrebuilt⟩ := h.rebuilt
  rw [getAll_rebuild hrebuilt (ne_host_of_computed hname), drops_of_computed hname]
  exact getAll_asked h.last (ne_cookie_of_computed hname) (notMem_validatorNames_of_computed hname)

/-- **The step.** -/
theorem Stuck.step (h : Stuck engine request limit before state) {status : StatusCode} {hop : Hop}
    (hgoes : engine.GoesOn limit state turn visit asked status hop next)
    (hbecome : Become request limit (before ++ [visit]) next)
    (hplain : ∀ name, carried name → name ∉ credentialHeaders → name ∉ bodyHeaders →
      next.request.headers.getAll name = state.request.headers.getAll name)
    (hsends : ∀ sent, visit.sent = some sent →
      ∃ made, SendsAfresh engine request before turn sent made) :
    Stuck engine request limit (before ++ [visit]) next where
  become := hbecome
  userActivated := by
    obtain ⟨body, hrebuilt⟩ := hgoes.rebuilt
    rw [userActivated_rebuild hrebuilt, userActivated_asked hgoes.last, h.userActivated]
  plain name hname hcredential hbody :=
    (hplain name hname hcredential hbody).trans (h.plain name hname hcredential hbody)
  host := by
    obtain ⟨body, hrebuilt⟩ := hgoes.rebuilt
    rw [getAll_host_rebuild hrebuilt]
    simp
  set name hname hset := by
    rw [getAll_next hgoes hname]
    cases hsent : visit.sent with
    | none => exact h.set name hname hset
    | some sent =>
      obtain ⟨made, hmade⟩ := hsends sent hsent
      have hown := getAll_own_of_computed hname request before sent
      have hpresent : (ownHeaders request before sent).getAll name ≠ [] := hown ▸ hset
      have hkept := HeaderEngine.apply_of_present hmade.afresh hpresent
      exact (hmade.same name (ne_cookie_of_computed hname)
        (notMem_validatorNames_of_computed hname) (Or.inr hset)).trans (hkept.trans hown)
  unset name hname hnone := by
    rw [getAll_next hgoes hname, h.unset name hname hnone, written_concat, standing_concat]
  sound name hname hnone := by
    rw [getAll_next hgoes hname]
    cases hsent : visit.sent with
    | none => exact h.sound name hname hnone
    | some sent =>
      intro hvalue
      obtain ⟨made, hmade⟩ := hsends sent hsent
      have hstays := hmade.stays name hname hnone
      rw [Option.map_some, Option.getD_some, hstays] at hvalue
      split_ifs at hvalue with hempty
      · have hown := getAll_own_of_computed hname request before sent
        exact HeaderEngine.sound_of_apply hmade.afresh (hown.trans hnone) hvalue
      · exact h.sound name hname hnone (h.unset name hname hnone ▸ hempty)

/-- One turn of the loop. -/
theorem Stuck.after (h : Stuck engine request limit before state) (turn : Turn) :
    (∀ sent, (engine.turn limit state turn).1.sent = some sent →
      ∃ made, SendsAfresh engine request before turn sent made) ∧
    ∀ next, (engine.turn limit state turn).2 = .inl next →
      Stuck engine request limit (before ++ [(engine.turn limit state turn).1]) next := by
  obtain ⟨hputs, hgoes⟩ := turn_parts engine limit state turn
  have hsends : ∀ sent, (engine.turn limit state turn).1.sent = some sent →
      ∃ made, SendsAfresh engine request before turn sent made := by
    intro sent hsent
    obtain ⟨protocol, applied, hput⟩ := hputs sent hsent
    exact h.sendsAfresh hput
  refine ⟨hsends, fun next hnext => ?_⟩
  obtain ⟨asked, status, hop, hgoes⟩ := hgoes next hnext
  refine h.step hgoes ((h.become.turn turn).2 next hnext) ?_ hsends
  intro name hname hcredential hbody
  obtain ⟨status', hop', -, hfollows⟩ := (turn_spec engine limit state turn).follows next hnext
  rw [hfollows.headers name hname]
  simp [drops, hcredential, hbody]

/-! ## The whole run -/

/-- Every hop of a run, beside what is computed for it afresh. -/
theorem run_sendsAfresh (engine : Engine) (request : Request) (requestUrl : Option Url)
    (hsts : HstsStore) (now : SystemTime) (turns : List Turn) {k : Nat}
    (hsent : sentAt (engine.run request requestUrl hsts now turns).1 k = some sent) :
    ∃ turn made, turns[k]? = some turn ∧ SendsAfresh engine request
      ((engine.run request requestUrl hsts now turns).1.take k) turn sent made := by
  obtain ⟨visit, hvisit, hsent⟩ := Option.bind_eq_some_iff.mp hsent
  unfold run at hvisit ⊢
  cases hurl : engine.startUrl request requestUrl with
  | error error => simp [hurl] at hvisit
  | ok url =>
    rw [hurl] at hvisit
    obtain ⟨turn, hturn, hsends⟩ := Loop.run_rule
      (Stuck engine request (engine.limitFor request.options))
      (fun before turn visit => ∀ sent, visit.sent = some sent →
        ∃ made, SendsAfresh engine request before turn sent made)
      (fun before state turn h _ => h.after turn) (Loop.meets_true _ turns)
      (stuck_start request _ url hsts now) hvisit
    obtain ⟨made, hmade⟩ := hsends sent hsent
    exact ⟨turn, made, hturn, hmade⟩

theorem getElem?_written {visits : List Visit} {k : Nat} {values : List HeaderValue} :
    (written visits name)[k]? = some (some values) ↔
      ∃ sent, sentAt visits k = some sent ∧ sent.headers.getAll name = values := by
  simp only [written, List.getElem?_map, sentAt, Option.map_eq_some_iff, Option.bind_eq_some_iff]
  constructor
  · rintro ⟨visit, hvisit, sent, hsent, heq⟩
    exact ⟨sent, ⟨visit, hvisit, hsent⟩, heq⟩
  · rintro ⟨sent, ⟨visit, hvisit, hsent⟩, heq⟩
    exact ⟨visit, hvisit, sent, hsent, heq⟩

theorem freshUnder_eq {turns : List Turn} {visits : List Visit} {k : Nat} {fresh : HeaderMap}
    (h : engine.afreshAt request turns visits k = some fresh) (name : HeaderName) :
    engine.freshUnder request turns visits name k = fresh.getAll name := by
  rw [freshUnder, h]
  rfl

section Run

variable {visits : List Visit} {turns : List Turn} {k : Nat}
  (hruns : ∀ k sent, sentAt visits k = some sent → ∃ turn made, turns[k]? = some turn ∧
    SendsAfresh engine request (visits.take k) turn sent made)

include hruns

theorem exists_afreshAt (hsent : sentAt visits k = some sent) :
    ∃ turn made, engine.afreshAt request turns visits k = some made.2 ∧
      SendsAfresh engine request (visits.take k) turn sent made := by
  obtain ⟨turn, made, hturn, hmade⟩ := hruns k sent hsent
  refine ⟨turn, made, ?_, hmade⟩
  simp [afreshAt, hturn, hsent, hmade.afresh, Except.toOption]

theorem sendsAfresh_of_afreshAt {fresh : HeaderMap}
    (h : engine.afreshAt request turns visits k = some fresh) :
    ∃ turn sent made, sentAt visits k = some sent ∧ fresh = made.2 ∧
      SendsAfresh engine request (visits.take k) turn sent made := by
  obtain ⟨sent, hsent⟩ : ∃ sent, sentAt visits k = some sent := by
    simp only [afreshAt, Option.bind_eq_bind, Option.bind_eq_some_iff] at h
    obtain ⟨_, -, sent, hsent, -⟩ := h
    exact ⟨sent, hsent⟩
  obtain ⟨turn, made, hafresh, hmade⟩ := exists_afreshAt hruns hsent
  rw [hafresh] at h
  exact ⟨turn, sent, made, hsent, (Option.some.inj h).symm, hmade⟩

theorem stays_written {name : HeaderName} (hname : computed name)
    (hnone : request.headers.getAll name = []) :
    Stays (engine.freshUnder request turns visits name) (written visits name) := by
  intro k values hk
  obtain ⟨sent, hsent, rfl⟩ := getElem?_written.mp hk
  obtain ⟨turn, made, hafresh, hmade⟩ := exists_afreshAt hruns hsent
  have htake : (written visits name).take k = written (visits.take k) name := List.map_take.symm
  rw [hmade.stays name hname hnone, htake, freshUnder_eq hafresh]

end Run

/-- **Every hop sends what is computed for it afresh** exactly when no computed value would change
on the way. -/
theorem hops_independent_iff (engine : Engine) (request : Request) (requestUrl : Option Url)
    (hsts : HstsStore) (now : SystemTime) (turns : List Turn) :
    let visits := (engine.run request requestUrl hsts now turns).1
    (∀ k sent, sentAt visits k = some sent →
      ∃ fresh, engine.afreshAt request turns visits k = some fresh ∧
        ∀ name, name ≠ .cookie → name ∉ validatorNames →
          sent.headers.getAll name = fresh.getAll name) ↔
    ∀ j k earlier later, j < k → engine.afreshAt request turns visits j = some earlier →
      engine.afreshAt request turns visits k = some later →
        ∀ name, supplies name → name ≠ .host → earlier.getAll name ≠ [] →
          later.getAll name = earlier.getAll name := by
  intro visits
  have hruns : ∀ k sent, sentAt visits k = some sent → ∃ turn made, turns[k]? = some turn ∧
      SendsAfresh engine request (visits.take k) turn sent made :=
    fun _ _ hsent => run_sendsAfresh engine request requestUrl hsts now turns hsent
  constructor
  · intro hall j k earlier later hlt hearlier hlater name hsupplies hhost hne
    have hname : computed name := by simp [computed, hsupplies, hhost]
    obtain ⟨_, first, made, hfirst, rfl, hmade⟩ := sendsAfresh_of_afreshAt hruns hearlier
    obtain ⟨_, second, made', hsecond, rfl, hmade'⟩ := sendsAfresh_of_afreshAt hruns hlater
    by_cases hnone : request.headers.getAll name = []
    · have hfresh : ∀ k values, (written visits name)[k]? = some (some values) →
          values = engine.freshUnder request turns visits name k := by
        intro k values hk
        obtain ⟨sent, hsent, rfl⟩ := getElem?_written.mp hk
        obtain ⟨fresh, hafresh, heq⟩ := hall k sent hsent
        rw [freshUnder_eq hafresh]
        exact heq name (ne_cookie_of_computed hname) (notMem_validatorNames_of_computed hname)
      rw [← freshUnder_eq hearlier name] at hne ⊢
      rw [← freshUnder_eq hlater name]
      exact (stays_written hruns hname hnone).fresh_iff.mp hfresh j k _ _ hlt
        (getElem?_written.mpr ⟨first, hfirst, rfl⟩)
        (getElem?_written.mpr ⟨second, hsecond, rfl⟩) hne
    · have hown : ∀ before sent, (ownHeaders request before sent).getAll name ≠ [] :=
        fun before sent => getAll_own_of_computed hname request before sent ▸ hnone
      rw [HeaderEngine.apply_of_present hmade.afresh (hown _ _),
        HeaderEngine.apply_of_present hmade'.afresh (hown _ _), getAll_own_of_computed hname,
        getAll_own_of_computed hname]
  · intro hsame k sent hsent
    obtain ⟨turn, made, hafresh, hmade⟩ := exists_afreshAt hruns hsent
    refine ⟨made.2, hafresh, fun name hcookie hvalidator => ?_⟩
    by_cases hcase : computed name = false ∨ request.headers.getAll name ≠ []
    · exact hmade.same name hcookie hvalidator hcase
    · rw [not_or, Bool.not_eq_false, not_not] at hcase
      obtain ⟨hname, hnone⟩ := hcase
      rw [← freshUnder_eq hafresh name]
      refine (stays_written hruns hname hnone).fresh_iff.mpr ?_ k _
        (getElem?_written.mpr ⟨sent, hsent, rfl⟩)
      intro j k _ _ hlt hj hk hne
      obtain ⟨first, hfirst, -⟩ := getElem?_written.mp hj
      obtain ⟨second, hsecond, -⟩ := getElem?_written.mp hk
      obtain ⟨_, earlier, hearlier, -⟩ := exists_afreshAt hruns hfirst
      obtain ⟨_, later, hlater, -⟩ := exists_afreshAt hruns hsecond
      rw [freshUnder_eq hearlier] at hne ⊢
      rw [freshUnder_eq hlater]
      simp only [computed, Bool.and_eq_true, decide_eq_true_eq] at hname
      exact hsame j k _ _ hlt hearlier hlater name hname.1 hname.2 hne

/-- The small engine, with `sec-fetch-site` in its order. -/
def fetching : Engine :=
  { small with
    headers.profile := { small.headers.profile with
      headerOrder := ⟨["host".toList, "sec-fetch-site".toList], none⟩ } }

def secFetchSite : HeaderName := ⟨"sec-fetch-site".toList, by decide⟩

/-- A link followed on a page of `example.com`. -/
def fromExample : Request :=
  { Request.plain .get [] .empty with
    options :=
      { mode := .navigate
        initiator := some ⟨"https".toList, "example.com".toList, 443⟩ } }

/-- Two hops: an answer that redirects, and one that does not. -/
def redirecting (location : String) : List Turn :=
  [Turn.answering 302 [(.location, .fromStatic location)], Turn.answering 200 []]

/-- The link, and what it redirects to. -/
def followed (location : String) : List Visit :=
  (fetching.run fromExample (some (.plain "https" "example.com" "/")) HstsStore.new 0
    (redirecting location)).1

/-- Two hops of one origin: what is computed for the first is right for the second. -/
theorem hops_independent_at_home :
    ∀ k sent, sentAt (followed "https://example.com/done") k = some sent →
      ∃ fresh, fetching.afreshAt fromExample (redirecting "https://example.com/done")
          (followed "https://example.com/done") k = some fresh ∧
        ∀ name, name ≠ .cookie → name ∉ validatorNames →
          sent.headers.getAll name = fresh.getAll name := by
  refine (hops_independent_iff fetching fromExample _ HstsStore.new 0 _).mpr ?_
  intro j k earlier later _ hearlier hlater name _ _ _
  have hboth : ∀ k fresh, fetching.afreshAt fromExample (redirecting "https://example.com/done")
      (followed "https://example.com/done") k = some fresh →
      fresh = [(.host, .fromStatic "example.com"), (secFetchSite, .fromStatic "same-origin")] := by
    have htwo : ∀ k < 2, fetching.afreshAt fromExample (redirecting "https://example.com/done")
        (followed "https://example.com/done") k =
        some [(.host, .fromStatic "example.com"), (secFetchSite, .fromStatic "same-origin")] := by
      decide +kernel
    intro k fresh h
    by_cases hk : k < 2
    · rw [htwo k hk] at h
      exact (Option.some.inj h).symm
    · rw [afreshAt, redirecting, List.getElem?_eq_none (Nat.le_of_not_lt hk)] at h
      cases h
  rw [hboth j earlier hearlier, hboth k later hlater]

/-- The link redirects to another site, and the request there says that it comes from the same
origin. -/
theorem fetch_site_outlives_the_hop :
    ((followed "https://other.example/").map fun visit => visit.sent.map fun sent =>
        sent.headers) =
        [some [(.host, .fromStatic "example.com"), (secFetchSite, .fromStatic "same-origin")],
          some [(.host, .fromStatic "other.example"), (secFetchSite, .fromStatic "same-origin")]] ∧
      fetching.afreshAt fromExample (redirecting "https://other.example/")
          (followed "https://other.example/") 1 =
        some [(.host, .fromStatic "other.example"), (secFetchSite, .fromStatic "cross-site")] := by
  decide +kernel

end Engine

end Chromulate.Http
