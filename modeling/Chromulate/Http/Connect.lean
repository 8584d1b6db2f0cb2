import Chromulate.Http.Pool
import Chromulate.Proxy.Strategy

/-!
# Routes and connections

`chromulate-http/src/connect.rs` and `Engine::acquire`: which proxy a hop goes through, and over
which connection it is sent. A hop asks the provider, looks for a pooled connection under each of
its keys and opens one if there is none. Any number of hops are under way at once, and between any
two of their steps a connection may close and a proxy may be reported.

A hop is sent over a connection opened to its origin through a proxy with the label of its own
(`sent_within`); what the provider goes through meanwhile is a run of the provider (`asking`). A
provider that answers with nothing and a proxy that stands aside both give a route without a
proxy, and such a route is a direct connection. Hops to hosts no member stands aside for are never
sent directly while the provider is steady (`never_direct`), and are as soon as every member has
been reported (`direct_once_exhausted`).
-/

namespace Chromulate.Http

open Proxy (Provider)

/-- What a connection leads to, through what, and which of those along the way it is. -/
structure Link where
  origin : Origin
  proxy : Option Proxy
  socket : Nat
  deriving DecidableEq

structure Route where
  origin : Origin
  proxy : Option Proxy
  deriving DecidableEq

/-- `Route::proxy_label`. -/
def Route.label (route : Route) : Option Str := route.proxy.map Proxy.label

/-- `Connector::route`, given what the provider answered. -/
def Route.choose (origin : Origin) (answer : Option Proxy) : Route where
  origin := origin
  proxy := answer.filter fun proxy => !proxy.bypasses origin.host

/-- The key of a connection along a route. -/
def Route.key (identity : Str) (route : Route) (protocol : Protocol) : PoolKey where
  scheme := route.origin.scheme
  host := route.origin.host
  port := route.origin.port
  proxy := route.label
  identity := identity
  protocol := protocol

def Route.candidateKeys (identity : Str) (route : Route) : List PoolKey :=
  if route.origin.isSecure then [route.key identity .http2, route.key identity .http11]
  else [route.key identity .http11]

/-- `Connector::connect`, once it has a stream: without TLS there is nothing to negotiate. -/
def Route.connect (identity : Str) (route : Route) (negotiated : Protocol) (socket : Nat) :
    PoolKey × Connection Link :=
  let protocol := if route.origin.isSecure then negotiated else .http11
  (route.key identity protocol, ⟨protocol, ⟨route.origin, route.proxy, socket⟩⟩)

/-! ## A hop -/

/-- What a hop was sent over. -/
structure Dispatch where
  route : Route
  key : PoolKey
  connection : Connection Link
  deriving DecidableEq

/-- Where a hop is. -/
inductive Stage (P : Provider Proxy) where
  | choosing (origin : Origin) (point : P.Point)
  | acquiring (answer : P.Answer) (route : Route) (keys : List PoolKey)
  | exchanging (answer : P.Answer) (dispatch : Dispatch)

/-- What a step of a hop finds. -/
structure Findings (P : Provider Proxy) where
  choose : P.Input
  now : Instant
  clock : Pool.Readings Link
  usable : Link → Bool
  /-- What a new connection negotiates, and which it is, if it comes about. -/
  opened : Option (Protocol × Nat)
  /-- Whether the body was read to its end. -/
  finished : Bool

/-- What hops share. -/
structure Outlet (P : Provider Proxy) where
  provider : P.State
  pool : Pool Link

namespace Hop

variable (identity : Str) (config : PoolConfig) (P : Provider Proxy)

/-- Where a hop is once the provider is asked. -/
def chosen (origin : Origin) : P.Point ⊕ P.Answer → Stage P ⊕ (P.Answer × Option Dispatch)
  | .inl point => .inl (.choosing origin point)
  | .inr answer =>
    let route := Route.choose origin (P.proxy answer)
    .inl (.acquiring answer route (route.candidateKeys identity))

/-- `Engine::acquire`: the keys one after the other, then a new connection, which is pooled at
once when it can be shared. -/
def acquire (found : Findings P) (pool : Pool Link) (route : Route) :
    List PoolKey → Pool Link × (List PoolKey ⊕ Option Dispatch)
  | [] =>
    match found.opened with
    | none => (pool, .inr none)
    | some (negotiated, socket) =>
      let (key, connection) := route.connect identity negotiated socket
      (if connection.protocol = .http2 then
          Pool.left (pool.release config found.usable found.clock key connection)
        else pool,
        .inr (some ⟨route, key, connection⟩))
  | key :: keys =>
    match pool.checkout config found.usable found.now key with
    | (some connection, pool) => (pool, .inr (some ⟨route, key, connection⟩))
    | (none, pool) => (pool, .inl keys)

/-- What becomes of a connection after the exchange. -/
def putBack (found : Findings P) (pool : Pool Link) (dispatch : Dispatch) : Pool Link :=
  if found.finished ∧ dispatch.connection.protocol = .http11 then
    Pool.left (pool.release config found.usable found.clock dispatch.key dispatch.connection)
  else pool

/-- A hop to an origin. It ends without a connection, or once its body is done with. -/
def method :
    Calls.Method (Outlet P) (Stage P) Origin (Findings P) (P.Answer × Option Dispatch) where
  enter outlet origin := chosen identity P origin (P.next.enter outlet.provider ())
  step outlet stage found :=
    match stage with
    | .choosing origin point =>
      let (provider, next) := P.next.step outlet.provider point found.choose
      ({ outlet with provider := provider }, chosen identity P origin next)
    | .acquiring answer route keys =>
      match acquire identity config P found outlet.pool route keys with
      | (pool, .inl keys) => ({ outlet with pool := pool }, .inl (.acquiring answer route keys))
      | (pool, .inr none) => ({ outlet with pool := pool }, .inr (answer, none))
      | (pool, .inr (some dispatch)) =>
        ({ outlet with pool := pool }, .inl (.exchanging answer dispatch))
    | .exchanging answer dispatch =>
      ({ outlet with pool := putBack config P found outlet.pool dispatch },
        .inr (answer, some dispatch))

/-- `report_failure`, from anywhere. -/
def report (outlet : Outlet P) (proxy : Proxy) : Outlet P :=
  { outlet with provider := P.reportFailure outlet.provider proxy }

/-- The hops of an engine and what they share. -/
abbrev World := Calls.World (Outlet P) (Stage P) (P.Answer × Option Dispatch)

/-- An engine with an empty pool. -/
def world (provider : P.State) (now : Instant) : World P := ⟨⟨provider, .new now⟩, []⟩

variable {P}

/-- What a hop was sent over, with what the provider had answered. -/
def dispatched : Stage P ⊕ (P.Answer × Option Dispatch) → Option (P.Answer × Dispatch)
  | .inl (.exchanging answer dispatch) => some (answer, dispatch)
  | .inr (answer, some dispatch) => some (answer, dispatch)
  | _ => none

/-- Everything sent so far. -/
def World.sent (w : World P) : List (P.Answer × Dispatch) := w.calls.filterMap dispatched

/-! ## What a connection is filed under -/

section Within

variable (Member : Proxy → Prop)

/-- A connection fits a key: it leads to the key's origin, through a member with the key's
label. -/
structure Fits (key : PoolKey) (connection : Connection Link) : Prop where
  scheme : key.scheme = connection.sender.origin.scheme
  host : key.host = connection.sender.origin.host
  port : key.port = connection.sender.origin.port
  label : key.proxy = connection.sender.proxy.map Proxy.label
  member : ∀ proxy, connection.sender.proxy = some proxy → Member proxy

/-- A route is the one chosen for an answer. -/
structure Routed (answer : P.Answer) (route : Route) : Prop where
  chosen : route = Route.choose route.origin (P.proxy answer)
  member : ∀ proxy, P.proxy answer = some proxy → Member proxy

/-- A hop is sent over a connection that fits a key of its route. -/
structure Sends (answer : P.Answer) (dispatch : Dispatch) : Prop where
  routed : Routed Member answer dispatch.route
  key : ∃ protocol, dispatch.key = dispatch.route.key identity protocol
  fits : Fits Member dispatch.key dispatch.connection

/-- What a hop keeps. -/
def Within : Stage P ⊕ (P.Answer × Option Dispatch) → Prop
  | .inl (.choosing _ _) => True
  | .inl (.acquiring answer route keys) => Routed Member answer route ∧
      ∀ key ∈ keys, ∃ protocol, key = route.key identity protocol
  | .inl (.exchanging answer dispatch) => Sends identity Member answer dispatch
  | .inr (answer, dispatch) => ∀ sent, dispatch = some sent → Sends identity Member answer sent

variable {identity config Member}

variable {answer : P.Answer} {route : Route}

theorem Routed.member_of_proxy (h : Routed Member answer route) {proxy : Proxy}
    (hproxy : route.proxy = some proxy) : Member proxy := by
  rw [h.chosen, Route.choose] at hproxy
  exact h.member proxy (Option.filter_eq_some_iff.mp hproxy).1

theorem candidateKeys_eq {key : PoolKey} (h : key ∈ route.candidateKeys identity) :
    ∃ protocol, key = route.key identity protocol := by
  unfold Route.candidateKeys at h
  split_ifs at h
  · rcases List.mem_pair.mp h with rfl | rfl
    · exact ⟨_, rfl⟩
    · exact ⟨_, rfl⟩
  · exact ⟨_, List.mem_singleton.mp h⟩

/-- It was opened through a proxy with the label of the hop's own. -/
theorem Sends.label_eq {dispatch : Dispatch} (h : Sends identity Member answer dispatch) :
    dispatch.connection.sender.proxy.map Proxy.label = dispatch.route.label := by
  obtain ⟨-, ⟨protocol, hkey⟩, hfits⟩ := h
  rw [← hfits.label, hkey]
  rfl

theorem fits_connect (hrouted : Routed Member answer route) (identity : Str)
    (negotiated : Protocol) (socket : Nat) :
    Fits Member (route.connect identity negotiated socket).1
      (route.connect identity negotiated socket).2 where
  scheme := rfl
  host := rfl
  port := rfl
  label := rfl
  member _ hproxy := hrouted.member_of_proxy hproxy

theorem acquire_spec {keys : List PoolKey} {pool : Pool Link} (config : PoolConfig)
    (found : Findings P) (hpool : pool.Filed (Fits Member)) (hrouted : Routed Member answer route)
    (hkeys : ∀ key ∈ keys, ∃ protocol, key = route.key identity protocol) :
    (acquire identity config P found pool route keys).1.Filed (Fits Member) ∧
      match (acquire identity config P found pool route keys).2 with
      | .inl rest => rest ⊆ keys
      | .inr none => True
      | .inr (some dispatch) => Sends identity Member answer dispatch := by
  cases keys with
  | nil =>
    simp only [acquire]
    cases found.opened with
    | none => exact ⟨hpool, trivial⟩
    | some negotiated =>
      have hfits := fits_connect hrouted identity negotiated.1 negotiated.2
      refine ⟨?_, hrouted, ⟨_, rfl⟩, hfits⟩
      simp only
      split_ifs
      · exact hpool.release hfits _
      · exact hpool
  | cons key keys =>
    obtain ⟨hpool', hfound⟩ := hpool.checkout config found.usable found.now key
    simp only [acquire]
    split
    · rename_i connection pool' hcheckout
      rw [hcheckout] at hpool' hfound
      obtain ⟨protocol, rfl⟩ := hkeys key List.mem_cons_self
      exact ⟨hpool', hrouted, ⟨protocol, rfl⟩, hfound connection rfl⟩
    · rename_i pool' hcheckout
      rw [hcheckout] at hpool'
      exact ⟨hpool', List.subset_cons_self _ _⟩

/-! ## Whole runs -/

/-- A provider whose answers are members while its state is in order. -/
structure Offering (Holds : P.State → Prop) (Member : Proxy → Prop) : Prop where
  enter : ∀ state, Holds state → ∀ answer, P.next.enter state () = .inr answer →
    ∀ proxy, P.proxy answer = some proxy → Member proxy
  step : ∀ state point input, Holds state → Holds (P.next.step state point input).1 ∧
    ∀ answer, (P.next.step state point input).2 = .inr answer →
      ∀ proxy, P.proxy answer = some proxy → Member proxy
  report : ∀ state proxy, Holds state → Holds (P.reportFailure state proxy)

variable {Holds : P.State → Prop}

/-- What hops share keeps. -/
def Stocked (Holds : P.State → Prop) (Member : Proxy → Prop) (outlet : Outlet P) : Prop :=
  Holds outlet.provider ∧ outlet.pool.Filed (Fits Member)

theorem within_chosen {origin : Origin} {next : P.Point ⊕ P.Answer}
    (h : ∀ answer, next = .inr answer → ∀ proxy, P.proxy answer = some proxy → Member proxy) :
    Within identity Member (chosen identity P origin next) := by
  cases next with
  | inl point => trivial
  | inr answer => exact ⟨⟨rfl, h answer rfl⟩, fun key hmem => candidateKeys_eq hmem⟩

theorem within_step (hoffering : Offering Holds Member) {outlet : Outlet P} {stage : Stage P}
    (found : Findings P) (hstocked : Stocked Holds Member outlet)
    (h : Within identity Member (.inl stage)) :
    Stocked Holds Member ((method identity config P).step outlet stage found).1 ∧
      Within identity Member ((method identity config P).step outlet stage found).2 := by
  cases stage with
  | choosing origin point =>
    obtain ⟨hholds, hanswers⟩ := hoffering.step outlet.provider point found.choose hstocked.1
    exact ⟨⟨hholds, hstocked.2⟩, within_chosen hanswers⟩
  | acquiring answer route keys =>
    obtain ⟨hpool, hresult⟩ := acquire_spec config found hstocked.2 h.1 h.2
    simp only [method]
    split <;> rename_i hacquire <;> rw [hacquire] at hpool hresult
    · exact ⟨⟨hstocked.1, hpool⟩, h.1, fun key hmem => h.2 key (hresult hmem)⟩
    · exact ⟨⟨hstocked.1, hpool⟩, fun sent hsent => by cases hsent⟩
    · exact ⟨⟨hstocked.1, hpool⟩, hresult⟩
  | exchanging answer dispatch =>
    have hsends : Sends identity Member answer dispatch := h
    refine ⟨⟨hstocked.1, ?_⟩, fun sent hsent => ?_⟩
    · simp only [method, putBack]
      split_ifs
      · exact hstocked.2.release hsends.fits _
      · exact hstocked.2
    · cases hsent
      exact hsends

/-- Whatever the provider answers and however hops overlap, each is sent over a connection that
fits a key of its route. -/
theorem sent_within (identity : Str) (config : PoolConfig) (hoffering : Offering Holds Member)
    {provider : P.State} (hholds : Holds provider) (now : Instant)
    (moves : List (Calls.Move Origin (Findings P) Proxy)) :
    ∀ sent ∈ World.sent ((world P provider now).run (method identity config P) (report P) moves),
      Sends identity Member sent.1 sent.2 := by
  have hmeets : (world P provider now).meets (method identity config P) (report P)
      (fun _ _ => true) moves := Calls.World.meets_true _ _
  have hrun := Calls.World.run_rule (Stocked Holds Member) (fun _ => Within identity Member)
    ?enter ?own ?other ?between hmeets ⟨hholds, Pool.filed_new now⟩ ?start
  case enter =>
    intro outlet origin hstocked
    exact within_chosen (hoffering.enter outlet.provider hstocked.1)
  case own =>
    intro w i stage found hstocked _ hwithin _
    exact within_step hoffering found hstocked hwithin
  case other =>
    intro w i j stage found other _ _ _ _ hwithin _
    exact hwithin
  case between =>
    intro outlet proxy hstocked
    exact ⟨⟨hoffering.report outlet.provider proxy hstocked.1, hstocked.2⟩, fun _ h => h⟩
  case start =>
    intro call hcall
    cases hcall
  intro sent hmem
  obtain ⟨call, hcall, hsent⟩ := List.mem_filterMap.mp hmem
  have hwithin := hrun.2 call hcall
  match call, hsent with
  | .inl (.exchanging answer dispatch), hsent =>
    cases hsent
    exact hwithin
  | .inr (answer, some dispatch), hsent =>
    cases hsent
    exact hwithin dispatch rfl

end Within

/-! ## The provider inside -/

section Asking

variable (identity : Str) (config : PoolConfig) (P : Provider Proxy)

/-- What hops do to the provider: each calls `next` once. -/
def asking : Calls.World.View (Outlet P) (Stage P) Origin (Findings P) (P.Answer × Option Dispatch)
    Proxy P.State P.Point Unit P.Input P.Answer Proxy where
  object := Outlet.provider
  call
    | .inl (.choosing _ point) => .inl point
    | .inl (.acquiring answer _ _) => .inr answer
    | .inl (.exchanging answer _) => .inr answer
    | .inr (answer, _) => .inr answer
  arg _ := ()
  input := Findings.choose
  act := some

theorem asking_chosen (origin : Origin) (next : P.Point ⊕ P.Answer) :
    (asking P).call (chosen identity P origin next) = next := by
  cases next <;> rfl

theorem asking_dispatched {call : Stage P ⊕ (P.Answer × Option Dispatch)}
    {sent : P.Answer × Dispatch} (h : dispatched call = some sent) :
    (asking P).call call = .inr sent.1 := by
  match call, h with
  | .inl (.exchanging answer dispatch), h =>
    cases h
    rfl
  | .inr (answer, some dispatch), h =>
    cases h
    rfl

theorem asking_faithful :
    (asking P).Faithful (method identity config P) (report P) P.next P.reportFailure where
  enter outlet origin := asking_chosen identity P origin _
  inside outlet stage found point hseen := by
    cases stage with
    | choosing origin point' =>
      cases hseen
      exact Prod.ext rfl (asking_chosen identity P origin _)
    | acquiring answer route keys => cases hseen
    | exchanging answer dispatch => cases hseen
  past outlet stage found answer hseen := by
    cases stage with
    | choosing origin point => cases hseen
    | exchanging answer' dispatch =>
      cases hseen
      exact ⟨rfl, rfl⟩
    | acquiring answer' route keys =>
      cases hseen
      simp only [method]
      split <;> exact ⟨rfl, rfl⟩
  done := fun (answer, _) => ⟨answer, rfl⟩
  acts outlet proxy := rfl

end Asking

/-! ## Never around the proxy -/

section Direct

variable (identity : Str) (config : PoolConfig)

open Proxy (Strategy)

/-- The providers offer members of their pools. -/
theorem strategy_offering (strategy : Strategy Proxy) :
    Offering (P := strategy.provider) strategy.Holds (· ∈ strategy.members) where
  enter state _ answer henter := by
    have hoffers := strategy.offers_enter state
    rw [henter] at hoffers
    exact hoffers
  step state point input hholds := by
    refine ⟨strategy.holds_step hholds point input, fun answer hstep => ?_⟩
    have hoffers := strategy.offers_step hholds point input
    rw [hstep] at hoffers
    exact hoffers
  report state proxy hholds := strategy.holds_report hholds proxy

/-- The provider of an engine is asked only while it is steady. -/
def steadily (strategy : Strategy Proxy) (w : World strategy.provider)
    (m : Calls.Move Origin (Findings strategy.provider) Proxy) : Bool :=
  ((asking strategy.provider).move m).all (strategy.steady ((asking strategy.provider).world w))

/-- **No leak around the proxy.** While the provider is steady, a hop to a host no member stands
aside for goes through a member. -/
theorem never_direct (strategy : Strategy Proxy) (hne : strategy.members ≠ []) (now : Instant)
    (moves : List (Calls.Move Origin (Findings strategy.provider) Proxy))
    (hsteady : (world strategy.provider strategy.start now).meets
      (method identity config strategy.provider) (report strategy.provider) (steadily strategy)
      moves) :
    ∀ sent ∈ World.sent ((world strategy.provider strategy.start now).run
        (method identity config strategy.provider) (report strategy.provider) moves),
      (∀ proxy ∈ strategy.members, proxy.bypasses sent.2.route.origin.host = false) →
        ∃ proxy ∈ strategy.members, sent.2.connection.sender.proxy = some proxy := by
  intro sent hmem haside
  have hfaithful := asking_faithful identity config strategy.provider
  have hsends := sent_within identity config (strategy_offering strategy) strategy.holds_start now
    moves sent hmem
  have hanswered : (strategy.provider.proxy sent.1).isSome := by
    refine strategy.steady_answers hne (hfaithful.meets_world hsteady) ?_
    obtain ⟨call, hcall, hdispatched⟩ := List.mem_filterMap.mp hmem
    rw [← show (asking strategy.provider).world (world strategy.provider strategy.start now) =
        strategy.world from rfl, ← hfaithful.world_run, Calls.World.mem_returned]
    exact List.mem_map.mpr ⟨call, hcall, asking_dispatched _ hdispatched⟩
  obtain ⟨chosen, hchosen⟩ := Option.isSome_iff_exists.mp hanswered
  have hroute : sent.2.route.proxy = some chosen := by
    rw [hsends.routed.chosen, Route.choose]
    simp [hchosen, haside chosen (hsends.routed.member chosen hchosen)]
  have hlabel := hsends.label_eq
  rw [Route.label, hroute] at hlabel
  obtain ⟨through, hthrough, -⟩ := Option.map_eq_some_iff.mp hlabel
  exact ⟨through, hsends.fits.member through hthrough, hthrough⟩

/-- A proxy without a bypass list. -/
def plainProxy (host : String) (h : host.toList.all (fun c => c ≠ '@' ∧ c ≠ '[' ∧ c ≠ ']')) :
    Proxy := .new ⟨.http, host.toList, 8080, none, none, h⟩

/-- A step that opens a connection if it comes to that. -/
def opening {P : Provider Proxy} (input : P.Input) : Findings P :=
  ⟨input, 0, ⟨0, 0, 0, .listed⟩, fun _ => true, some (.http11, 0), true⟩

/-- Two proxies in turn. -/
def inTurn : Strategy Proxy :=
  .roundRobin 64 0 [plainProxy "one.test" (by decide), plainProxy "two.test" (by decide)]

/-- The first proxy is reported; then a hop asks, passing over it, and before it has connected a
second hop asks and connects. -/
def afterReport : List (Calls.Move Origin (Findings inTurn.provider) Proxy) :=
  [.act (plainProxy "one.test" (by decide)), .call ⟨"http".toList, "origin.test".toList, 80⟩,
    .call ⟨"http".toList, "other.test".toList, 80⟩] ++
    (List.replicate 4 (.step 0 (opening ())) ++ List.replicate 6 (.step 1 (opening ())) ++
      List.replicate 2 (.step 0 (opening ())))

theorem never_direct_inTurn :
    (World.sent ((world inTurn.provider inTurn.start 0).run (method [] ⟨90, 6, 100⟩ _) (report _)
        afterReport)).map (fun sent => sent.2.connection.sender.proxy) =
      List.replicate 2 (some (plainProxy "two.test" (by decide))) ∧
    ∀ sent ∈ World.sent ((world inTurn.provider inTurn.start 0).run (method [] ⟨90, 6, 100⟩ _)
        (report _) afterReport),
      ∃ proxy ∈ inTurn.members, sent.2.connection.sender.proxy = some proxy := by
  refine ⟨by decide, fun sent hmem => ?_⟩
  refine never_direct [] ⟨90, 6, 100⟩ inTurn (by decide) 0 afterReport (by decide) sent hmem ?_
  intro proxy hproxy
  rcases List.mem_pair.mp hproxy with rfl | rfl <;> rfl

/-- The only proxy. -/
def onlyOne : Strategy Proxy := .single (plainProxy "one.test" (by decide))

/-- Once the only member has been reported, the next hop goes to its origin directly. -/
theorem direct_once_exhausted :
    (World.sent ((world onlyOne.provider onlyOne.start 0).run (method [] ⟨90, 6, 100⟩ _) (report _)
        [.act (plainProxy "one.test" (by decide)), .call ⟨"http".toList, "origin.test".toList, 80⟩,
          .step 0 (opening ()), .step 0 (opening ()), .step 0 (opening ())])).map
      (fun sent => (sent.2.route.origin.host, sent.2.connection.sender.proxy)) =
        [("origin.test".toList, none)] ∧
      ∀ proxy ∈ onlyOne.members, proxy.bypasses "origin.test".toList = false := by
  decide

end Direct

end Hop

end Chromulate.Http
