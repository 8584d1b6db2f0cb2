import Chromulate.Cache.HttpCache

/-!
# Exchanges on one cache

Any number of exchanges share a cache, and their calls interleave: `before` starts an exchange,
`after` hands it the response, and each poll of its body draws one frame. An exchange keeps
what the outside has put into it, the request, the response and the frames so far, so that
what the cache later serves can be traced to it. Every call brings its own reading of the clock.
-/

namespace Chromulate.Cache

/-- Where an exchange stands. -/
inductive Phase where
  | pending (pending : Pending)
  | reading (answer : Response) (frames : List Frame) (body : Body)

/-- One exchange: the request as the caller wrote it, and how far it has come. -/
structure Exchange where
  request : Request
  url : Url
  phase : Phase

/-- The cache and the exchanges on it, in the order of their `before`. -/
structure World where
  cache : HttpCache
  exchanges : List Exchange

/-- What can happen next. Exchanges are named by their number. -/
inductive Call where
  | before (request : Request) (url : Url) (now : SystemTime)
  | after (i : Nat) (url : Url) (response : Response) (now : SystemTime)
  | poll (i : Nat) (frame : Frame)
  | invalidate (url : Url)

namespace World

/-- A new cache over an empty store. -/
def new (limits : MemoryLimits) (config : CacheConfig) : World :=
  ⟨⟨MemoryStore.withLimits limits, config⟩, []⟩

variable (env : Env)

/-- The writes a call makes. -/
def ops (w : World) : Call → List StoreOp
  | .before _ _ _ => []
  | .after i url response now =>
    match w.exchanges[i]? with
    | some ⟨_, _, .pending pending⟩ =>
      (HttpCache.after env w.cache.config pending url response now).1
    | _ => []
  | .poll i frame =>
    match w.exchanges[i]? with
    | some ⟨_, _, .reading _ _ body⟩ => (body.poll frame).2.1
    | _ => []
  | .invalidate url => [Cache.invalidate url]

/-- The exchanges after a call. A `Pending` is used up by `after`. -/
def exchangesAfter (w : World) : Call → List Exchange
  | .before request url now =>
    w.exchanges ++ [⟨request, url, .pending (w.cache.before env request url now).pending⟩]
  | .after i url response now =>
    match w.exchanges[i]? with
    | some ⟨request, target, .pending pending⟩ =>
      w.exchanges.set i ⟨request, target, .reading response []
        (HttpCache.after env w.cache.config pending url response now).2.body⟩
    | _ => w.exchanges
  | .poll i frame =>
    match w.exchanges[i]? with
    | some ⟨request, target, .reading answer frames body⟩ =>
      w.exchanges.set i
        ⟨request, target, .reading answer (frames ++ [frame]) (body.poll frame).1⟩
    | _ => w.exchanges
  | .invalidate _ => w.exchanges

/-- The cache after a call: `before` reads it, every other call only writes. -/
def cacheAfter (w : World) (call : Call) : HttpCache :=
  match call with
  | .before request url now => (w.cache.before env request url now).cache
  | call => w.cache.perform env (w.ops env call)

/-- One call. -/
def step (w : World) (call : Call) : World := ⟨w.cacheAfter env call, w.exchangesAfter env call⟩

/-- A run of calls. -/
def run (w : World) (calls : List Call) : World := calls.foldl (step env) w

variable {env} {w : World}

@[simp] theorem run_cons (call : Call) (calls : List Call) :
    w.run env (call :: calls) = (w.step env call).run env calls := rfl

theorem run_append (calls more : List Call) :
    w.run env (calls ++ more) = (w.run env calls).run env more := List.foldl_append

@[simp] theorem config_step (call : Call) :
    (w.step env call).cache.config = w.cache.config := by
  cases call with
  | before request url now => exact (before_spec env w.cache request url now).config
  | after i url response now => rfl
  | poll i frame => rfl
  | invalidate url => rfl

@[simp] theorem config_run (calls : List Call) :
    (w.run env calls).cache.config = w.cache.config := by
  induction calls generalizing w with
  | nil => rfl
  | cons call calls ih => rw [run_cons, ih, config_step]

/-- **A call adds to the store only what it puts.** -/
theorem mem_variantsAt_step {call : Call} {key : CacheKey} {entry : CacheEntry}
    (h : entry ∈ (w.step env call).cache.variantsAt env key) :
    entry ∈ w.cache.variantsAt env key ∨ .put key entry ∈ w.ops env call := by
  cases call with
  | before request url now =>
    left
    have h : entry ∈ (w.cache.before env request url now).cache.variantsAt env key := h
    rwa [(before_spec env w.cache request url now).variants] at h
  | after | poll | invalidate => exact mem_variantsAt_perform h

end World

/-! ## Exchanges only go forward -/

/-- `y` is `x` at a later time: what has been answered and read stays. -/
def Exchange.Later (x y : Exchange) : Prop :=
  y.request = x.request ∧ y.url = x.url ∧
    ∀ answer frames body, x.phase = .reading answer frames body →
      ∃ frames' body', y.phase = .reading answer frames' body' ∧ frames <+: frames'

theorem Exchange.Later.refl (x : Exchange) : x.Later x :=
  ⟨rfl, rfl, fun _ frames body h => ⟨frames, body, h, List.prefix_rfl⟩⟩

/-- Every exchange of the first list is in the second, at a later time. -/
def Grows (xs ys : List Exchange) : Prop := ∀ x ∈ xs, ∃ y ∈ ys, x.Later y

theorem Grows.refl (xs : List Exchange) : Grows xs xs := fun x hx => ⟨x, hx, .refl x⟩

theorem grows_set {xs : List Exchange} {i : Nat} {x y : Exchange} (hx : xs[i]? = some x)
    (h : x.Later y) : Grows xs (xs.set i y) := by
  intro z hz
  obtain ⟨j, hj⟩ := List.mem_iff_getElem?.mp hz
  by_cases hij : i = j
  · subst hij
    rw [hx] at hj
    cases hj
    have hlt : i < xs.length := (List.getElem?_eq_some_iff.mp hx).1
    exact ⟨y, List.mem_of_getElem? (List.getElem?_set_self hlt), h⟩
  · refine ⟨z, List.mem_of_getElem? (i := j) ?_, .refl z⟩
    rw [List.getElem?_set_ne hij, hj]

namespace World

variable {env : Env} {w : World}

theorem grows_step (env : Env) (w : World) (call : Call) :
    Grows w.exchanges (w.step env call).exchanges := by
  rw [step]
  cases call with
  | before request url now => exact fun x hx => ⟨x, List.mem_append_left _ hx, .refl x⟩
  | after i url response now =>
    simp only [exchangesAfter]
    split
    · rename_i request target pending hi
      exact grows_set hi ⟨rfl, rfl, by rintro _ _ _ ⟨⟩⟩
    · exact .refl _
  | poll i frame =>
    simp only [exchangesAfter]
    split
    · rename_i request target answer frames body hi
      refine grows_set hi ⟨rfl, rfl, ?_⟩
      rintro _ _ _ ⟨⟩
      exact ⟨_, _, rfl, List.prefix_append _ _⟩
    · exact .refl _
  | invalidate url => exact .refl _

/-- What a call has just made of an exchange. -/
inductive Touched (env : Env) (w : World) : Call → Exchange → Prop where
  | started (request : Request) (url : Url) (now : SystemTime) :
      Touched env w (.before request url now)
        ⟨request, url, .pending (w.cache.before env request url now).pending⟩
  | answered {i : Nat} {request : Request} {target : Url} {pending : Pending} (url : Url)
      (response : Response) (now : SystemTime)
      (hx : ⟨request, target, .pending pending⟩ ∈ w.exchanges) :
      Touched env w (.after i url response now) ⟨request, target, .reading response []
        (HttpCache.after env w.cache.config pending url response now).2.body⟩
  | read {i : Nat} {request : Request} {target : Url} {answer : Response} {frames : List Frame}
      {body : Body} (frame : Frame)
      (hx : ⟨request, target, .reading answer frames body⟩ ∈ w.exchanges) :
      Touched env w (.poll i frame)
        ⟨request, target, .reading answer (frames ++ [frame]) (body.poll frame).1⟩

/-- **A call leaves every exchange alone but the one it is about.** -/
theorem mem_exchanges_step {call : Call} {y : Exchange}
    (h : y ∈ (w.step env call).exchanges) : y ∈ w.exchanges ∨ Touched env w call y := by
  rw [step] at h
  cases call with
  | before request url now =>
    rcases List.mem_append.mp h with h | h
    · exact Or.inl h
    · rw [List.mem_singleton.mp h]
      exact Or.inr (.started request url now)
  | after i url response now =>
    simp only [exchangesAfter] at h
    split at h
    · rename_i request target pending hi
      rcases List.mem_or_eq_of_mem_set h with h | rfl
      · exact Or.inl h
      · exact Or.inr (.answered url response now (List.mem_of_getElem? hi))
    · exact Or.inl h
  | poll i frame =>
    simp only [exchangesAfter] at h
    split at h
    · rename_i request target answer frames body hi
      rcases List.mem_or_eq_of_mem_set h with h | rfl
      · exact Or.inl h
      · exact Or.inr (.read frame (List.mem_of_getElem? hi))
    · exact Or.inl h
  | invalidate url => exact Or.inl h

end World

/-- The request of the exchange satisfies `P`, and its answer, when there is one, `Q`. -/
structure Exchange.Holds (P : Request → Prop) (Q : Response → Prop) (x : Exchange) : Prop where
  request : P x.request
  answer : ∀ answer frames body, x.phase = .reading answer frames body → Q answer

/-- The call hands the cache a request that satisfies `P`, a response that satisfies `Q`, or
neither. -/
def Call.Hands (P : Request → Prop) (Q : Response → Prop) : Call → Prop
  | .before request _ _ => P request
  | .after _ _ response _ => Q response
  | .poll _ _ => True
  | .invalidate _ => True

namespace World

variable {env : Env} {w : World} {P : Request → Prop} {Q : Response → Prop}

theorem holds_step {call : Call} (hw : ∀ x ∈ w.exchanges, x.Holds P Q) (hcall : call.Hands P Q) :
    ∀ x ∈ (w.step env call).exchanges, x.Holds P Q := by
  intro x hx
  rcases mem_exchanges_step hx with hx | hx
  · exact hw x hx
  · cases hx with
    | started request url now => exact ⟨hcall, by rintro _ _ _ ⟨⟩⟩
    | answered url response now hold =>
      refine ⟨(hw _ hold).request, ?_⟩
      rintro _ _ _ ⟨⟩
      exact hcall
    | read frame hold =>
      refine ⟨(hw _ hold).request, ?_⟩
      rintro _ _ _ ⟨⟩
      exact (hw _ hold).answer _ _ _ rfl

/-- **What holds of every message handed in holds of every exchange.** -/
theorem holds_run {calls : List Call} (hw : ∀ x ∈ w.exchanges, x.Holds P Q)
    (hcalls : ∀ call ∈ calls, call.Hands P Q) :
    ∀ x ∈ (w.run env calls).exchanges, x.Holds P Q := by
  induction calls generalizing w with
  | nil => exact hw
  | cons call calls ih =>
    exact ih (holds_step hw (hcalls call List.mem_cons_self))
      fun c hc => hcalls c (List.mem_cons_of_mem _ hc)

end World

/-! ## How entries get into the store -/

namespace World

variable {env : Env} {w : World}

/-- The two ways an entry gets into the store. -/
inductive Puts (env : Env) (w : World) : Call → CacheKey → CacheEntry → Prop where
  | refreshed {i : Nat} {request : Request} {target url : Url} {state : PendingInner}
      {response : Response} {now : SystemTime} {found : CacheEntry} {names : List HeaderName}
      (hx : ⟨request, target, .pending (.store state)⟩ ∈ w.exchanges)
      (hfound : state.revalidating = some found) (hstatus : response.status = 304)
      (hvary : selectsTheSameWay found.headers response.headers)
      (hjudge : state.judge w.cache.config found.status
        (found.refreshed response.headers state.requestedAt now).headers = .ok names)
      (hy : ⟨request, target, .reading response [] (HttpCache.after env w.cache.config
        (.store state) url response now).2.body⟩ ∈
        (w.step env (.after i url response now)).exchanges) :
      Puts env w (.after i url response now) state.key
        (found.refreshed response.headers state.requestedAt now)
  | recorded {i : Nat} {request : Request} {target : Url} {answer : Response}
      {frames : List Frame} {recording : Recording} {length : Option Nat} {commit : Commit}
      (hx : ⟨request, target, .reading answer frames (.recording recording length)⟩ ∈
        w.exchanges)
      (hcommit : recording.commit = some commit)
      (hy : ⟨request, target, .reading answer (frames ++ [.done])
        (.recording (recording.poll .done).1 length)⟩ ∈ (w.step env (.poll i .done)).exchanges) :
      Puts env w (.poll i .done) commit.key (commit.entry recording.buffered)

/-- **Entries are put by a `304` or at the end of a body, and in no other way.** -/
theorem puts_of_ops {call : Call} {key : CacheKey} {entry : CacheEntry}
    (h : .put key entry ∈ w.ops env call) : Puts env w call key entry := by
  cases call with
  | before request url now => cases h
  | after i url response now =>
    simp only [ops] at h
    split at h
    · rename_i request target pending hi
      obtain ⟨state, found, names, rfl, rfl, hfound, hstatus, hvary, rfl, hjudge⟩ :=
        put_of_after h
      refine .refreshed (List.mem_of_getElem? hi) hfound hstatus hvary hjudge ?_
      have hlt := (List.getElem?_eq_some_iff.mp hi).1
      simp only [step, exchangesAfter, hi]
      exact List.mem_of_getElem? (List.getElem?_set_self hlt)
    · cases h
  | poll i frame =>
    simp only [ops] at h
    split at h
    · rename_i request target answer frames body hi
      cases body with
      | incoming length => cases h
      | fixed bytes => cases h
      | draining d length => cases h
      | recording r length =>
        obtain ⟨rfl, commit, hcommit, rfl, rfl⟩ := put_of_recording h
        refine .recorded (List.mem_of_getElem? hi) hcommit ?_
        have hlt := (List.getElem?_eq_some_iff.mp hi).1
        simp only [step, exchangesAfter, hi]
        exact List.mem_of_getElem? (List.getElem?_set_self hlt)
    · cases h
  | invalidate url => simp [ops, Cache.invalidate] at h

end World

/-! ## A small session, for examples -/

/-- A process that hashes every key alike, with a `url` crate that joins nothing. -/
def Env.simple : Env := ⟨⟨fun _ => 0, ⟨40, 200⟩⟩, fun _ _ => none⟩

/-- A `200` of two bytes with the given fields. -/
def Response.ok (headers : HeaderMap) : Response := ⟨200, .http11, headers, some 2⟩

/-- Exchange `i`: a `GET` at time zero, answered and read to the end. -/
def fetch (i : Nat) (url : Url) (headers : HeaderMap) : List Call :=
  [.before ⟨.get, []⟩ url 0, .after i url (.ok headers) 0, .poll i (.data [0x68, 0x69]),
    .poll i .done]

end Chromulate.Cache
