import Chromulate.Http.Engine

/-!
# HSTS along a redirect chain

`Engine::run` asks the HSTS store once, for the URL it starts with. No request then leaves in plain
text for a host the store applies to as long as no redirect names one: `pinned_hosts_encrypted`.
A redirect's target is not looked up, so a host that has just asked for HTTPS is visited in plain
text when its own answer says so: `redirected_into_plaintext`.
-/

namespace Chromulate.Http

namespace Engine

variable (engine : Engine)

/-- A response redirects to a plain-text URL of a host the store applies to. -/
def misdirects (url : Url) (hsts : HstsStore) (now : SystemTime) (status : StatusCode)
    (headers : HeaderMap) : Bool :=
  Redirect.isRedirect status &&
    ((headers.get .location).bind HeaderValue.toStr).any fun text =>
      match engine.crate.join url (Text.trim text) with
      | .ok target => hsts.exposes engine.preload target now
      | .error _ => false

/-- The response of a turn, the cache's or the origin's, is no such redirect; the store has by then
been taught what the origin's says. -/
def heeds (state : State) (turn : Turn) : Bool :=
  match engine.cacheBefore turn.cache state, turn.answer with
  | (_, _, some reply), _ =>
    !engine.misdirects state.url state.hsts state.clock reply.status reply.headers
  | (_, _, none), .error _ => true
  | (_, pending, none), .ok response =>
    let now := state.clock + turn.wait + turn.elapsed
    let (status, headers) := engine.cacheAfter turn.cache pending state.url response now
    !engine.misdirects state.url (recordResponse state.url response.headers state.hsts now) now
      status headers

/-- A run that starts from an `http` or `https` URL and all of whose turns have such responses. -/
def heedsHsts (request : Request) (requestUrl : Option Url) (hsts : HstsStore) (now : SystemTime)
    (turns : List Turn) : Bool :=
  match engine.startUrl request requestUrl with
  | .error _ => true
  | .ok url =>
    let limit := engine.limitFor request.options
    (url.scheme = "http".toList || url.scheme = "https".toList) &&
      Loop.meets (engine.turn limit) engine.heeds (engine.start request url hsts now) turns

variable {engine}

theorem not_exposes_of_conclude {limit : Option Nat} {state next : State} {spare : Option Body}
    {status : StatusCode} {headers : HeaderMap}
    (hheeds : engine.misdirects state.url state.hsts state.clock status headers = false)
    (h : engine.conclude limit state spare status headers = .inl next) :
    ¬ next.hsts.exposes engine.preload next.url next.clock := by
  obtain ⟨hop, _, _, hdecide, -, -, rfl⟩ := conclude_eq_inl h
  obtain ⟨hfollowed, text, hlocation, hjoin⟩ := Redirect.followed_of_decide hdecide
  simpa [misdirects, hfollowed.redirects, hlocation, hjoin] using hheeds

/-- **A step of the argument.** From a state whose URL is not exposed nothing exposed is sent, and
a turn whose response heeds the store leads to such a state again. -/
theorem heeds_step {limit : Option Nat} {state : State} {turn : Turn}
    (hstate : ¬ state.hsts.exposes engine.preload state.url state.clock)
    (hheeds : engine.heeds state turn) :
    (∀ sent, (engine.turn limit state turn).1.sent = some sent →
      ¬ sent.hsts.exposes engine.preload sent.url sent.instant) ∧
    ∀ next, (engine.turn limit state turn).2 = .inl next →
      ¬ next.hsts.exposes engine.preload next.url next.clock := by
  have hspec := turn_spec engine limit state turn
  constructor
  · intro sent hsent hexposes
    have hsends := hspec.sends sent hsent
    rw [hsends.hsts, hsends.url] at hexposes
    -- time has passed since the state, and policies only run out
    exact hstate (HstsStore.exposes_of_le hsends.instant hexposes)
  · intro next hnext
    have hbefore : (engine.cacheBefore turn.cache state).2 =
        (engine.cacheBefore turn.cache
          { state with request := { state.request with body := .empty } }).2 := by
      cases turn.cache <;> rfl
    unfold Engine.turn at hnext
    unfold heeds at hheeds
    dsimp only at hnext
    split at hnext
    · rename_i request pending reply hcache
      rw [hcache] at hbefore
      rw [← Prod.mk.eta (p := engine.cacheBefore turn.cache state), hbefore] at hheeds
      exact not_exposes_of_conclude (by simpa using hheeds) hnext
    · rename_i request pending hcache
      rw [hcache] at hbefore
      rw [← Prod.mk.eta (p := engine.cacheBefore turn.cache state), hbefore] at hheeds
      split at hnext
      · cases hnext
      · rename_i after sent response hhop
        obtain ⟨hanswer, -, hafter⟩ := eq_of_hop hhop
        rw [hanswer] at hheeds
        rw [hafter] at hnext
        exact not_exposes_of_conclude (by simpa using hheeds) hnext

/-- **No request leaves in plain text for a host the store applies to when it leaves**, in a run
that heeds the store. -/
theorem pinned_hosts_encrypted (engine : Engine) (request : Request) (requestUrl : Option Url)
    (hsts : HstsStore) (now : SystemTime) (turns : List Turn)
    (hheeds : engine.heedsHsts request requestUrl hsts now turns) :
    ∀ visit ∈ (engine.run request requestUrl hsts now turns).1, ∀ sent, visit.sent = some sent →
      ¬ sent.hsts.exposes engine.preload sent.url sent.instant := by
  intro visit hvisit
  unfold run at hvisit
  unfold heedsHsts at hheeds
  split at hvisit
  · cases hvisit
  · rename_i url hurl
    rw [hurl] at hheeds
    simp only [Bool.and_eq_true, Bool.or_eq_true, decide_eq_true_eq] at hheeds
    obtain ⟨k, hk⟩ := List.mem_iff_getElem?.mp hvisit
    obtain ⟨-, -, hsafe⟩ := Loop.run_rule
      (fun _ state => ¬ state.hsts.exposes engine.preload state.url state.clock)
      (fun _ _ visit => ∀ sent, visit.sent = some sent →
        ¬ sent.hsts.exposes engine.preload sent.url sent.instant)
      (fun _ state turn hstate hheeds => heeds_step hstate hheeds) hheeds.2
      (HstsStore.not_exposes_upgrade engine.crate engine.preload hsts now hheeds.1) hk
    exact hsafe

/-- An `http` URL of a host with a policy is upgraded, and the redirect to another host's `https`
URL is followed. -/
theorem upgraded_and_redirected :
    let hsts := HstsStore.new.record "example.com".toList "max-age=100".toList true 0
    let request := Request.plain .get [] .empty
    let turns :=
      [Turn.answering 301 [(.location, .fromStatic "https://other.example/")],
        Turn.answering 200 []]
    let url := Url.plain "http" "example.com" "/"
    (small.run request (some url) hsts 1 turns).1.map (fun visit =>
        visit.sent.map fun sent => sent.url.scheme) =
      [some "https".toList, some "https".toList] ∧
    ∀ visit ∈ (small.run request (some url) hsts 1 turns).1, ∀ sent, visit.sent = some sent →
      ¬ sent.hsts.exposes small.preload sent.url sent.instant := by
  refine ⟨by decide +kernel, ?_⟩
  apply pinned_hosts_encrypted
  decide +kernel

/-- `https://example.com` answers with a policy for itself and a redirect to its own plain-text
URL: the redirect is followed in plain text, while the policy applies. -/
theorem redirected_into_plaintext :
    let request := Request.plain .get [] .empty
    let turns :=
      [Turn.answering 301 [(.location, .fromStatic "http://example.com/login"),
          (.strictTransportSecurity, .fromStatic "max-age=31536000")],
        Turn.answering 200 []]
    let url := Url.plain "https" "example.com" "/"
    (small.run request (some url) HstsStore.new 0 turns).1.map (fun visit =>
        visit.sent.map fun sent => sent.hsts.exposes small.preload sent.url sent.instant) =
      [some false, some true] := by
  decide +kernel

end Engine

end Chromulate.Http
