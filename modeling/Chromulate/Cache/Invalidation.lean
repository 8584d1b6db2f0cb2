import Chromulate.Cache.Exchange

/-!
# What an invalidation does to exchanges in flight

A successful unsafe request empties its target's key. Nothing ties a later write to it: an
exchange that was under way puts its entry when its body ends, or when a `304` confirms the
entry it had found, whatever has happened to the key in between. So a hit after an invalidation
can serve a response requested before it (**`in_flight_hit`**); what does hold is that **the
entry was put since** (`hit_put_since`).
-/

namespace Chromulate.Cache

open HeaderMap

section Invalidation

variable {env : Env} {w : World}

/-- An unsafe request waits to invalidate, and for nothing else. -/
def WaitsToInvalidate (xs : List Exchange) : Prop :=
  ∀ request url pending, ⟨request, url, .pending pending⟩ ∈ xs →
    isSafe request.method = false → pending = .invalidate

theorem pending_before_of_not_safe {cache : HttpCache} {request : Request} (url : Url)
    (now : SystemTime) (h : isSafe request.method = false) :
    (cache.before env request url now).pending = .invalidate := by
  have hget : request.method ≠ .get := by
    intro hm
    rw [hm] at h
    cases h
  unfold HttpCache.before
  rw [if_pos (by simp [hget])]
  simp [Pending.ofMethod, h]

theorem waitsToInvalidate_step (hw : WaitsToInvalidate w.exchanges) (call : Call) :
    WaitsToInvalidate (w.step env call).exchanges := by
  intro request url pending hx hsafe
  rcases World.mem_exchanges_step hx with hx | hx
  · exact hw _ _ _ hx hsafe
  · generalize hy : (⟨request, url, .pending pending⟩ : Exchange) = y at hx
    cases hx with
    | started r u now =>
      cases hy
      exact pending_before_of_not_safe url now hsafe
    | answered => cases hy
    | read => cases hy

theorem waitsToInvalidate_run (hw : WaitsToInvalidate w.exchanges) (calls : List Call) :
    WaitsToInvalidate (w.run env calls).exchanges := by
  induction calls generalizing w with
  | nil => exact hw
  | cons call calls ih => exact ih (waitsToInvalidate_step hw call)

/-- **A successful unsafe request leaves nothing under its target.** -/
theorem variantsAt_invalidated {i : Nat} {request : Request} {target u : Url}
    {response : Response} {now : SystemTime}
    (hi : w.exchanges[i]? = some ⟨request, target, .pending .invalidate⟩)
    (hstatus : response.status < 400) :
    (w.step env (.after i u response now)).cache.variantsAt env (CacheKey.new .get u) = [] := by
  have hops : w.ops env (.after i u response now) =
      invalidate u :: invalidateReferenced env u response.headers := by
    simp [World.ops, hi, HttpCache.after, hstatus]
  rw [List.eq_nil_iff_forall_not_mem]
  intro e he
  have he : e ∈ (w.cache.perform env (w.ops env (.after i u response now))).variantsAt env
      (CacheKey.new .get u) := he
  rw [hops] at he
  -- the target's own key goes first, and none of the writes that follow is a put
  have he : e ∈ (HttpCache.perform env ⟨w.cache.storage.remove env.process (CacheKey.new .get u),
      w.cache.config⟩ (invalidateReferenced env u response.headers)).variantsAt env
      (CacheKey.new .get u) := he
  rcases mem_variantsAt_perform he with he | he
  · have he : e ∈ (w.cache.storage.remove env.process (CacheKey.new .get u)).variantsAt
        env.process (CacheKey.new .get u) := he
    rw [MemoryStore.variantsAt_remove, if_pos rfl] at he
    cases he
  · have hput : .put (CacheKey.new .get u) e ∈ w.ops env (.after i u response now) := by
      rw [hops]
      exact List.mem_cons_of_mem _ he
    simp only [World.ops, hi] at hput
    obtain ⟨state, _, _, hstate, -⟩ := put_of_after hput
    cases hstate

/-- **What a run leaves in the store was there before it or was put in its course.** -/
theorem put_since {calls : List Call} {key : CacheKey} {e : CacheEntry}
    (h : e ∈ (w.run env calls).cache.variantsAt env key) :
    e ∈ w.cache.variantsAt env key ∨ ∃ front call back, calls = front ++ call :: back ∧
      .put key e ∈ (w.run env front).ops env call := by
  induction calls generalizing w with
  | nil => exact Or.inl h
  | cons call calls ih =>
    rcases ih h with h | ⟨front, c, back, rfl, hput⟩
    · rcases World.mem_variantsAt_step h with h | hput
      · exact Or.inl h
      · exact Or.inr ⟨[], call, calls, rfl, hput⟩
    · exact Or.inr ⟨call :: front, c, back, rfl, hput⟩

end Invalidation

/-- The call that puts an entry ends a body or brings a `304`. -/
def Call.Completes (call : Call) : Prop :=
  ∃ i, call = .poll i .done ∨
    ∃ url response now, call = .after i url response now ∧ response.status = 304

theorem completes_of_put {env : Env} {w : World} {call : Call} {key : CacheKey} {e : CacheEntry}
    (h : .put key e ∈ w.ops env call) : call.Completes := by
  cases World.puts_of_ops h with
  | @refreshed i _ _ url _ response now _ _ _ _ hstatus =>
    exact ⟨i, Or.inr ⟨url, response, now, rfl, hstatus⟩⟩
  | @recorded i => exact ⟨i, Or.inl rfl⟩

/-- **After an invalidation, a hit serves only what was put since.** Whatever the interleaving,
once a response with a status below 400 to an unsafe request for `u` has been processed, an entry
served for `u` was put after it, by the end of a body or by a `304`. -/
theorem hit_put_since (env : Env) (limits : MemoryLimits) (config : CacheConfig)
    (calls since : List Call) (i : Nat) (writer : Request) (target u : Url)
    (pending : Pending) (response : Response) (processedAt : SystemTime)
    (hi : ((World.new limits config).run env calls).exchanges[i]? =
      some ⟨writer, target, .pending pending⟩)
    (hsafe : isSafe writer.method = false) (hstatus : response.status < 400)
    (request : Request) (now : SystemTime) (reply : Reply)
    (h : (((World.new limits config).run env
      (calls ++ .after i u response processedAt :: since)).cache.before env request u now).served =
      some reply) :
    ∃ e front call back,
      (((World.new limits config).run env (calls ++ .after i u response processedAt :: since)
        ).cache.select env (CacheKey.new .get u) request.headers).1 = some e ∧
      reply = toResponse e (currentAge e now) .hit ∧
      since = front ++ call :: back ∧ call.Completes ∧
      .put (CacheKey.new .get u) e ∈ ((World.new limits config).run env
        (calls ++ .after i u response processedAt :: front)).ops env call := by
  obtain ⟨e, hselect, hreply, -⟩ := (before_spec env _ request u now).served reply h
  have hmem := (mem_of_select hselect).1
  have hwaits : WaitsToInvalidate ((World.new limits config).run env calls).exchanges :=
    waitsToInvalidate_run (by rintro _ _ _ ⟨⟩) calls
  obtain rfl := hwaits _ _ _ (List.mem_of_getElem? hi) hsafe
  rw [World.run_append, World.run_cons] at hmem
  rcases put_since hmem with hmem | ⟨front, call, back, hsince, hput⟩
  · rw [variantsAt_invalidated hi hstatus] at hmem
    cases hmem
  · refine ⟨e, front, call, back, hselect, hreply, hsince, completes_of_put hput, ?_⟩
    rw [World.run_append, World.run_cons]
    exact hput

/-- A `GET` whose response head has come while a `POST` to the same target is under way. -/
def getThenPost (url : Url) : List Call :=
  [.before ⟨.get, []⟩ url 0, .before ⟨.post, []⟩ url 0,
    .after 0 url (.ok [(.cacheControl, .fromStatic "max-age=60")]) 0]

/-- The rest of the `GET`'s body. -/
def restOfGet : List Call := [.poll 0 (.data [0x68, 0x69]), .poll 0 .done]

/-- The entry served after the `POST` was put by the end of the `GET`'s body. -/
theorem getThenPost_put_since :
    ∃ e front call back, restOfGet = front ++ call :: back ∧ call.Completes ∧
      .put (CacheKey.new .get (.plain "https" "example.com" "/")) e ∈
        ((World.new .default .default).run .simple
          (getThenPost (.plain "https" "example.com" "/") ++
            .after 1 (.plain "https" "example.com" "/") (.ok []) 0 :: front)).ops .simple call := by
  have hserved : (((World.new .default .default).run .simple
      (getThenPost (.plain "https" "example.com" "/") ++
        .after 1 (.plain "https" "example.com" "/") (.ok []) 0 :: restOfGet)).cache.before .simple
      ⟨.get, []⟩ (.plain "https" "example.com" "/") 0).served.isSome := by
    decide +kernel
  obtain ⟨reply, hreply⟩ := Option.isSome_iff_exists.mp hserved
  obtain ⟨e, front, call, back, -, -, hsince, hcompletes, hput⟩ := hit_put_since .simple .default
    .default (getThenPost (.plain "https" "example.com" "/")) restOfGet 1 ⟨.post, []⟩
    (.plain "https" "example.com" "/") (.plain "https" "example.com" "/") .invalidate (.ok []) 0
    rfl rfl (by decide) ⟨.get, []⟩ 0 reply hreply
  exact ⟨e, front, call, back, hsince, hcompletes, hput⟩

/-- **A response requested before an invalidation is served after it.** The `POST` empties the
key, the `GET` that was under way ends, and its response is a hit. -/
theorem in_flight_hit :
    ((World.new .default .default).run .simple
      (getThenPost (.plain "https" "example.com" "/"))).ops .simple
      (.after 1 (.plain "https" "example.com" "/") (.ok []) 0) =
      [.remove (CacheKey.new .get (.plain "https" "example.com" "/"))] ∧
    (((World.new .default .default).run .simple
      (getThenPost (.plain "https" "example.com" "/") ++
        .after 1 (.plain "https" "example.com" "/") (.ok []) 0 :: restOfGet)).cache.before .simple
      ⟨.get, []⟩ (.plain "https" "example.com" "/") 0).served.any
      (fun reply => reply.status = 200 ∧ reply.cacheStatus = some .hit) = true := by
  decide +kernel

end Chromulate.Cache
