import Chromulate.Cookies.Jar
import Chromulate.Http.Hops
import Chromulate.Http.Sessions

/-!
# Cookies along a chain

The loop of `Engine::run` again, now with the jars: every hop that is sent finds the session of its
own route, asks its jar, and teaches it the `Set-Cookie` headers of the answer. Routes may change
from hop to hop, and between any two of a request's own steps other requests do to the sessions
what they like.

`cookies_fresh`: the `Cookie` header of a hop is what the jar of its own route answers, once the
earlier hops have taught theirs. What an earlier jar has answered is not on the request any more.
-/

namespace Chromulate.Http

open Redirect Header

/-- `CookieStore`: its answer may change it. -/
structure CookieStore (J : Type*) where
  cookiesFor : J → Url → CookieContext → SystemTime → Option HeaderValue × J
  store : J → Url → List HeaderValue → SystemTime → J

/-- The engine's own jar is one. -/
def CookieStore.jar (env : Cookies.Env) : CookieStore Cookies.Jar where
  cookiesFor := Cookies.Jar.cookiesFor env
  store := Cookies.Jar.store env

/-- The world a turn of the loop finds, but for its session's jar. -/
structure Leg (J : Type*) where
  /-- What other requests have done to the sessions since the last turn. -/
  meanwhile : Sessions (Option J) → Sessions (Option J)
  /-- `Route::proxy_label`. -/
  route : Option Str
  /-- What they do while a connection is acquired. -/
  acquiring : Sessions (Option J) → Sessions (Option J)
  cache : Option Cache.HttpCache
  granted : Origin → List HighEntropyHint
  validators : Url → Option Validators
  wait : Duration
  connection : Except Error Protocol
  /-- What they do while the answer is on its way. -/
  during : Sessions (Option J) → Sessions (Option J)
  answer : Except Error Cache.Response
  elapsed : Duration

section

variable {J : Type*} (store : CookieStore J)

/-- What a session's jar answers; a session without one answers nothing. -/
def answerOf (sessions : Sessions (Option J)) (session : Nat) (url : Url) (context : CookieContext)
    (now : SystemTime) : Option HeaderValue :=
  (sessions.made[session]?.getD none).bind fun jar => (store.cookiesFor jar url context now).1

/-- A session's jar is asked. -/
def askJar (sessions : Sessions (Option J)) (session : Nat) (url : Url) (context : CookieContext)
    (now : SystemTime) : Sessions (Option J) :=
  sessions.update session (Option.map fun jar => (store.cookiesFor jar url context now).2)

/-- `record_response`, as far as cookies go. -/
def teachJar (sessions : Sessions (Option J)) (session : Nat) (url : Url) (headers : HeaderMap)
    (now : SystemTime) : Sessions (Option J) :=
  sessions.update session (Option.map fun jar =>
    store.store jar url (headers.getAll .setCookie) now)

variable (fresh : Option J)

/-- A leg as a turn, with the session its route has. -/
def Leg.turn (leg : Leg J) (sessions : Sessions (Option J)) (now : SystemTime) : Turn where
  cache := leg.cache
  session :=
    { cookiesFor := fun url context =>
        let (sessions, session) := sessions.forRoute fresh leg.route
        answerOf store (leg.acquiring sessions) session url context (now + leg.wait)
      granted := leg.granted
      validators := leg.validators }
  wait := leg.wait
  connection := leg.connection
  answer := leg.answer
  elapsed := leg.elapsed

/-- The sessions after a hop that was sent: its route's has been asked, and taught the answer. -/
def Leg.exchange (leg : Leg J) (context : CookieContext) (sessions : Sessions (Option J))
    (sent : Sent) : Sessions (Option J) :=
  let (sessions, session) := sessions.forRoute fresh leg.route
  let sessions := leg.during
    (askJar store (leg.acquiring sessions) session sent.url context sent.instant)
  match leg.answer with
  | .error _ => sessions
  | .ok response =>
    teachJar store sessions session sent.url response.headers (sent.instant + leg.elapsed)

/-- The sessions after a turn; one the cache has answered leaves them alone. -/
def Leg.after (leg : Leg J) (context : CookieContext) (sessions : Sessions (Option J))
    (visit : Visit) : Sessions (Option J) :=
  match visit.sent with
  | none => leg.meanwhile sessions
  | some sent => leg.exchange store fresh context (leg.meanwhile sessions) sent

/-- One turn of the loop of `Engine::run`, with the sessions. -/
def Engine.leg (engine : Engine) (limit : Option Nat) (world : State × Sessions (Option J))
    (leg : Leg J) : Visit × ((State × Sessions (Option J)) ⊕ Except Error Finished) :=
  let out := engine.turn limit world.1
    (leg.turn store fresh (leg.meanwhile world.2) world.1.clock)
  (out.1, out.2.map (fun next =>
    (next, leg.after store fresh world.1.request.options.cookieContext world.2 out.1)) id)

/-- `Engine::run`, with the sessions. -/
def Engine.runWith (engine : Engine) (request : Request) (requestUrl : Option Url)
    (hsts : HstsStore) (now : SystemTime) (sessions : Sessions (Option J)) (legs : List (Leg J)) :
    List Visit × Option (Except Error Finished) :=
  match engine.startUrl request requestUrl with
  | .error error => ([], some (.error error))
  | .ok url =>
    Loop.run (engine.leg store fresh (engine.limitFor request.options))
      (engine.start request url hsts now, sessions) legs

/-- The sessions after some turns: every hop on record has taught the jar of its own route. -/
def taught (context : CookieContext) (sessions : Sessions (Option J))
    (past : List (Leg J × Visit)) : Sessions (Option J) :=
  past.foldl (fun sessions hop => hop.1.after store fresh context sessions hop.2) sessions

/-- What the jar of a leg's own route answers. -/
def Leg.ownAnswer (leg : Leg J) (context : CookieContext) (sessions : Sessions (Option J))
    (sent : Sent) : Option HeaderValue :=
  let (sessions, session) := (leg.meanwhile sessions).forRoute fresh leg.route
  answerOf store (leg.acquiring sessions) session sent.url context sent.instant

variable {store fresh} {engine : Engine} {request : Request} {sessions : Sessions (Option J)}

/-- The request has no cookie, and the sessions are what the hops on record have taught. -/
structure NoCookie (store : CookieStore J) (fresh : Option J) (request : Request)
    (sessions : Sessions (Option J)) (past : List (Leg J × Visit))
    (world : State × Sessions (Option J)) : Prop where
  options : world.1.request.options = request.options
  cookie : world.1.request.headers.getAll .cookie = []
  sessions : world.2 = taught store fresh request.options.cookieContext sessions past

theorem taught_concat (context : CookieContext) (sessions : Sessions (Option J))
    (past : List (Leg J × Visit)) (hop : Leg J × Visit) :
    taught store fresh context sessions (past ++ [hop]) =
      hop.1.after store fresh context (taught store fresh context sessions past) hop.2 :=
  List.foldl_concat ..

theorem NoCookie.step {limit : Option Nat} {past : List (Leg J × Visit)}
    {world : State × Sessions (Option J)} (h : NoCookie store fresh request sessions past world)
    (leg : Leg J) :
    (∀ sent, (engine.leg store fresh limit world leg).1.sent = some sent →
      sent.headers.getAll .cookie = (leg.ownAnswer store fresh request.options.cookieContext
        (taught store fresh request.options.cookieContext sessions past) sent).toList) ∧
    ∀ next, (engine.leg store fresh limit world leg).2 = .inl next →
      NoCookie store fresh request sessions
        (past ++ [(leg, (engine.leg store fresh limit world leg).1)]) next := by
  obtain ⟨state, now⟩ := world
  obtain ⟨hoptions, hcookie, hsessions⟩ := h
  dsimp only at hoptions hcookie hsessions
  subst hsessions
  generalize hnow : taught store fresh request.options.cookieContext sessions past = now
  let turn := leg.turn store fresh (leg.meanwhile now) state.clock
  have hspec := Engine.turn_spec engine limit state turn
  constructor
  · intro sent hsent
    have hsends := hspec.sends sent hsent
    obtain ⟨protocol, applied, hputs⟩ := (Engine.turn_parts engine limit state turn).1 sent hsent
    have hinstant : sent.instant = state.clock + leg.wait := by
      rw [hputs.sends]
      rfl
    have hjar : Engine.fromJar turn.session state.request state.url =
        turn.session.cookiesFor sent.url request.options.cookieContext := by
      rw [Engine.fromJar, HeaderMap.containsKey, hcookie, hsends.url, hoptions]
      rfl
    rw [hsends.cookie, hcookie, List.nil_append, hjar, Leg.ownAnswer, hinstant]
    rfl
  · intro next hnext
    have hmap : (engine.turn limit state turn).2.map (fun next =>
        (next, leg.after store fresh state.request.options.cookieContext now
          (engine.turn limit state turn).1)) id = .inl next := hnext
    cases hout : (engine.turn limit state turn).2 with
    | inr result =>
      rw [hout] at hmap
      cases hmap
    | inl after =>
      rw [hout] at hmap
      cases hmap
      obtain ⟨status, hop, -, hfollows⟩ := hspec.follows after hout
      refine ⟨hfollows.options.trans hoptions, ?_, ?_⟩
      · rw [hfollows.headers .cookie carried_cookie, hcookie, ite_self]
      · rw [taught_concat, hnow, hoptions]
        rfl

/-- **Cookie freshness.** -/
theorem cookies_fresh (engine : Engine) (store : CookieStore J) (fresh : Option J)
    (request : Request) (hnone : request.headers.getAll .cookie = []) (requestUrl : Option Url)
    (hsts : HstsStore) (now : SystemTime) (sessions : Sessions (Option J)) (legs : List (Leg J)) :
    let visits := (engine.runWith store fresh request requestUrl hsts now sessions legs).1
    ∀ (k : Nat) (visit : Visit) (sent : Sent), visits[k]? = some visit → visit.sent = some sent →
      ∃ leg, legs[k]? = some leg ∧ sent.headers.getAll .cookie =
        (leg.ownAnswer store fresh request.options.cookieContext
          (taught store fresh request.options.cookieContext sessions
            ((legs.zip visits).take k)) sent).toList := by
  dsimp only
  intro k visit sent hvisit hsent
  unfold Engine.runWith at hvisit ⊢
  cases hurl : engine.startUrl request requestUrl with
  | error error => simp [hurl] at hvisit
  | ok url =>
    rw [hurl] at hvisit
    have hstart : NoCookie store fresh request sessions []
        (engine.start request url hsts now, sessions) := ⟨rfl, hnone, rfl⟩
    obtain ⟨leg, hleg, hcookies⟩ := Loop.run_zip_rule
      (NoCookie store fresh request sessions)
      (fun past leg visit => ∀ sent, visit.sent = some sent →
        sent.headers.getAll .cookie = (leg.ownAnswer store fresh request.options.cookieContext
          (taught store fresh request.options.cookieContext sessions past) sent).toList)
      (fun past world leg h _ => h.step leg) (Loop.meets_true _ legs) [] hstart hvisit
    exact ⟨leg, hleg, hcookies sent hsent⟩

end

/-- A jar that answers with what was set last. -/
def lastSet : CookieStore (List HeaderValue) where
  cookiesFor jar _ _ _ := (jar.head?, jar)
  store jar _ values _ := values.reverse ++ jar

/-- A hop through a proxy, with nobody else about. -/
def Leg.through (route : String) (turn : Turn) : Leg (List HeaderValue) where
  meanwhile := id
  route := some route.toList
  acquiring := id
  cache := turn.cache
  granted := turn.session.granted
  validators := turn.session.validators
  wait := turn.wait
  connection := turn.connection
  during := id
  answer := turn.answer
  elapsed := turn.elapsed

/-- Three hops through two exits: the cookie set through the one is sent through it again, and not
through the other. -/
def twoExits : List (Leg (List HeaderValue)) :=
  [.through "a" (.answering 302 [(.location, .fromStatic "https://example.com/1"),
      (.setCookie, .fromStatic "x=1")]),
    .through "b" (.answering 302 [(.location, .fromStatic "https://example.com/2")]),
    .through "a" (.answering 200 [])]

theorem cookies_fresh_two_exits :
    let request := Request.plain .get [] .empty
    let visits := (Engine.small.runWith lastSet (some []) request
      (some (.plain "https" "example.com" "/")) HstsStore.new 0 (.perProxy (some []) 2) twoExits).1
    (visits.map fun visit => visit.sent.map fun sent => sent.headers.getAll .cookie) =
        [some [], some [], some [.fromStatic "x=1"]] ∧
      ∀ visit sent, visits[2]? = some visit → visit.sent = some sent →
        ∃ leg, twoExits[2]? = some leg ∧ sent.headers.getAll .cookie =
          (leg.ownAnswer lastSet (some []) request.options.cookieContext
            (taught lastSet (some []) request.options.cookieContext (.perProxy (some []) 2)
              ((twoExits.zip visits).take 2)) sent).toList := by
  refine ⟨by decide +kernel, fun visit sent => ?_⟩
  exact cookies_fresh Engine.small lastSet (some []) (.plain .get [] .empty) rfl _ _ _ _ _ 2 visit
    sent

end Chromulate.Http
