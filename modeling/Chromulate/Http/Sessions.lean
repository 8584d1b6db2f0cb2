import Chromulate.Lib.Select
import Chromulate.Lib.Table
import Chromulate.Lib.Text

/-!
# Sessions

`chromulate-http/src/session.rs`: what an origin has taught the engine, kept once for all routes or
once for each proxy. A session is shared by reference, so one that is dropped from the registry
lives on for the requests that hold it. Here all sessions ever made stand in a list, the base
session first, and a reference is a place in it.
-/

namespace Chromulate.Http

/-- `Entry`. -/
structure RouteEntry where
  session : Nat
  lastUseSeq : BitVec 64

/-- `Isolated`. A registry that cannot hold the route it was just asked for is never built. -/
structure Isolated where
  routes : Table Str RouteEntry
  seq : BitVec 64
  maxRoutes : Nat
  positive : 0 < maxRoutes

/-- `Sessions`, with the sessions themselves. -/
structure Sessions (σ : Type*) where
  made : List σ
  isolated : Option Isolated

namespace Isolated

abbrev Scan := Table.Scan Str RouteEntry

/-- The least recently used route, the first of them that the iteration meets. -/
def oldest (scan : Scan) (routes : Table Str RouteEntry) : Option Str :=
  (Select.minByKey (fun entry => entry.2.lastUseSeq.toNat) (scan.run routes)).map Sigma.fst

/-- The loop of `Isolated::evict`, given as many turns as there are routes. -/
def evictLoop (scan : Scan) (maxRoutes : Nat) : Nat → Table Str RouteEntry → Table Str RouteEntry
  | 0, routes => routes
  | turns + 1, routes =>
    if routes.entries.length ≤ maxRoutes then routes
    else
      match oldest scan routes with
      | none => routes
      | some victim => evictLoop scan maxRoutes turns (routes.erase victim)

def evict (scan : Scan) (maxRoutes : Nat) (routes : Table Str RouteEntry) : Table Str RouteEntry :=
  evictLoop scan maxRoutes routes.entries.length routes

/-- The use of a route on file. -/
def touch (isolated : Isolated) (proxy : Str) (entry : RouteEntry) : Isolated :=
  { isolated with
    seq := isolated.seq + 1
    routes := isolated.routes.insert proxy { entry with lastUseSeq := isolated.seq } }

/-- The filing of a new session. -/
def file (isolated : Isolated) (proxy : Str) (session : Nat) : Isolated :=
  { isolated with
    seq := isolated.seq + 1
    routes := evict .listed isolated.maxRoutes
      (isolated.routes.insert proxy ⟨session, isolated.seq⟩) }

end Isolated

namespace Sessions

variable {σ : Type*}

def shared (base : σ) : Sessions σ := ⟨[base], none⟩

def perProxy (base : σ) (maxRoutes : Nat) : Sessions σ :=
  ⟨[base], some ⟨∅, 0, max maxRoutes 1, by omega⟩⟩

/-- `Sessions::for_route`, with `Isolated::session_for`: the session of a route, which is minted
when there is none. -/
def forRoute (fresh : σ) (sessions : Sessions σ) (proxy : Option Str) : Sessions σ × Nat :=
  match sessions.isolated, proxy with
  | some isolated, some proxy =>
    match isolated.routes.lookup proxy with
    | some entry =>
      ({ sessions with isolated := some (isolated.touch proxy entry) }, entry.session)
    | none =>
      ({ made := sessions.made ++ [fresh]
         isolated := some (isolated.file proxy sessions.made.length) },
        sessions.made.length)
  | _, _ => (sessions, 0)

/-- A change to one session. -/
def update (sessions : Sessions σ) (session : Nat) (change : σ → σ) : Sessions σ :=
  { sessions with made := sessions.made.modify session change }

end Sessions

end Chromulate.Http
