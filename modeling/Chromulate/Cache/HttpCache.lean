import Chromulate.Cache.Policy
import Chromulate.Cache.Storage

/-!
# The cache

`chromulate-cache/src/cache.rs`: what is done before a request is sent (`before`), with what
comes back (`after`), and while the caller reads a body that is being recorded (`Body.poll`).

`before` reads the store once. `after` and a recorded body only write to it, so they are given
as the list of writes they make, in order, beside what they return; `perform` carries the
writes out.
-/

namespace Chromulate.Cache

open HeaderMap

/-! ## Messages -/

/-- A request, as far as the cache looks at it. -/
structure Request where
  method : Method
  headers : HeaderMap
  deriving DecidableEq

/-- A response as it arrives; `length` is what its body's `size_hint().exact()` answers. -/
structure Response where
  status : StatusCode
  version : Version
  headers : HeaderMap
  length : Option Nat
  deriving DecidableEq

inductive CacheStatus where
  | hit
  | revalidated
  deriving DecidableEq

/-- `Commit`: everything an entry needs but its body. -/
structure Commit where
  key : CacheKey
  status : StatusCode
  version : Version
  headers : HeaderMap
  selector : Selector
  requestedAt : SystemTime
  receivedAt : SystemTime
  limit : Nat

/-- `Recording`: a body that stores itself as the caller reads it. -/
structure Recording where
  buffered : Bytes
  commit : Option Commit

/-- `Draining`: the end of a `304`, and then the stored body. -/
structure Draining where
  innerOpen : Bool
  stored : Option Bytes

/-- The bodies a caller can be given. -/
inductive Body where
  | incoming (length : Option Nat)
  | fixed (bytes : Bytes)
  | recording (recording : Recording) (length : Option Nat)
  | draining (draining : Draining) (length : Option Nat)

/-- The response the caller is given, with the `CacheStatus` of its extensions. -/
structure Reply where
  status : StatusCode
  version : Version
  headers : HeaderMap
  body : Body
  cacheStatus : Option CacheStatus

/-- The response as it came. -/
def Response.passOn (response : Response) : Reply :=
  ⟨response.status, response.version, response.headers, .incoming response.length, none⟩

def Reply.stamp (reply : Reply) (age : Duration) (status : CacheStatus) : Reply :=
  { reply with
    headers := insert reply.headers .age (HeaderValue.ofNat (Duration.asSecs age))
    cacheStatus := some status }

def toResponse (entry : CacheEntry) (age : Duration) (status : CacheStatus) : Reply :=
  Reply.stamp ⟨entry.status, entry.version, entry.headers, .fixed entry.body, none⟩ age status

def revalidated (entry : CacheEntry) (age : Duration) : Reply :=
  Reply.stamp ⟨entry.status, entry.version, entry.headers,
    .draining ⟨true, some entry.body⟩ (some entry.body.length), none⟩ age .revalidated

/-! ## The cache and its store -/

/-- `HttpCache`; the clock is an argument of what reads it. -/
structure HttpCache where
  storage : MemoryStore
  config : CacheConfig

/-- What the process and the `url` crate contribute: hashes and sizes, and `Url::join`. -/
structure Env where
  process : Process
  join : Url → Str → Option Url

/-- A write to the store. -/
inductive StoreOp where
  | put (key : CacheKey) (entry : CacheEntry)
  | remove (key : CacheKey)
  deriving DecidableEq

/-- Carry out one write. -/
def MemoryStore.apply (process : Process) (store : MemoryStore) : StoreOp → MemoryStore
  | .put key entry => store.put process key entry
  | .remove key => store.remove process key

/-- Carry out writes in order. -/
def HttpCache.perform (env : Env) (cache : HttpCache) (ops : List StoreOp) : HttpCache :=
  { cache with storage := ops.foldl (MemoryStore.apply env.process) cache.storage }

/-! ## Before a request -/

structure PendingInner where
  key : CacheKey
  requestHeaders : HeaderMap
  requestCc : CacheControl
  requestedAt : SystemTime
  revalidating : Option CacheEntry

/-- `Pending`, by its `Kind`. -/
inductive Pending where
  | aside
  | invalidate
  | store (state : PendingInner)

def isSafe (method : Method) : Bool :=
  method = .get || method = .head || method = .options || method = .trace

/-- `Pending::aside`. -/
def Pending.ofMethod (method : Method) : Pending := if isSafe method then .aside else .invalidate

/-- `HttpCache::select`: the first stored variant that matches; the read counts as a use. -/
def HttpCache.select (env : Env) (cache : HttpCache) (key : CacheKey) (request : HeaderMap) :
    Option CacheEntry × HttpCache :=
  let (variants, storage) := cache.storage.get env.process key
  (variants.find? fun entry => entry.selector.matchesRequest request,
    { cache with storage := storage })

/-- What `before` leaves and returns. -/
structure Before where
  cache : HttpCache
  request : Request
  pending : Pending
  served : Option Reply

/-- The validators of a stored response, put on the request. -/
def conditional (request : Request) (entry : CacheEntry) : Request :=
  let headers := match get entry.headers .etag with
    | some etag => insert request.headers .ifNoneMatch etag
    | none => request.headers
  let headers := match get entry.headers .lastModified with
    | some lastModified => insert headers .ifModifiedSince lastModified
    | none => headers
  { request with headers := headers }

/-- The caller runs its own conditional or range request. -/
def callerOwnsIt (headers : HeaderMap) : Bool :=
  containsKey headers .ifNoneMatch || containsKey headers .ifModifiedSince ||
    containsKey headers .range

/-- The state a cacheable request starts with. -/
def PendingInner.start (request : Request) (url : Url) (now : SystemTime) : PendingInner where
  key := CacheKey.new request.method url
  requestHeaders := request.headers
  requestCc := CacheControl.ofRequest request.headers
  requestedAt := now
  revalidating := none

def HttpCache.before (env : Env) (cache : HttpCache) (request : Request) (url : Url)
    (now : SystemTime) : Before :=
  if callerOwnsIt request.headers || request.method ≠ .get ||
      (CacheControl.ofRequest request.headers).noStore then
    ⟨cache, request, .ofMethod request.method, none⟩
  else
    let state := PendingInner.start request url now
    match cache.select env state.key request.headers with
    | (none, cache) => ⟨cache, request, .store state, none⟩
    | (some entry, cache) =>
      let responseCc := CacheControl.of entry.headers
      if isFresh entry responseCc cache.config now &&
          !requestForcesRevalidation state.requestCc then
        ⟨cache, request, .store state, some (toResponse entry (currentAge entry now) .hit)⟩
      else if !hasValidator entry.headers then ⟨cache, request, .store state, none⟩
      else
        ⟨cache, conditional request entry,
          .store { state with revalidating := some entry }, none⟩

/-! ## After a response -/

/-- `opaque_tag`: an entity tag without its weakness mark. -/
def opaqueTag (value : HeaderValue) : Bytes :=
  let weak : Bytes := [0x57, 0x2F]
  (weak.isPrefixOf? value.bytes).getD value.bytes

def validatorsAgree (stored notModified : HeaderMap) : Bool :=
  match get stored .etag, get notModified .etag with
  | some stored, some confirmed => opaqueTag stored = opaqueTag confirmed
  | _, _ => true

def selectsTheSameWay (stored notModified : HeaderMap) : Bool :=
  if !containsKey notModified .vary then true
  else
    match varyNames stored with
    | some names => varyNames notModified = some names
    | none => false

/-- Equality of `url::Origin`s: an opaque one equals no other. -/
def sameOrigin (a b : Url) : Bool :=
  match a.origin, b.origin with
  | some x, some y => x = y
  | _, _ => false

/-- `HttpCache::invalidate`, as a write. -/
def invalidate (url : Url) : StoreOp := .remove (CacheKey.new .get url)

/-- `HttpCache::invalidate_referenced`: the same-origin targets a response points at. -/
def invalidateReferenced (env : Env) (url : Url) (headers : HeaderMap) : List StoreOp :=
  [HeaderName.location, HeaderName.contentLocation].filterMap fun name => do
    let value ← get headers name
    let text ← value.toStr
    let target ← env.join url text
    if sameOrigin target url then some (invalidate target) else none

/-- The storage rules, for a response to a pending request. -/
def PendingInner.judge (state : PendingInner) (config : CacheConfig) (status : StatusCode)
    (headers : HeaderMap) : Except NotStorable (List HeaderName) :=
  storable config .get state.requestHeaders state.requestCc status headers
    (CacheControl.of headers)

/-- The entry a `304` revalidates: the one that was found, when the `304` is about it. -/
def PendingInner.confirmed (state : PendingInner) (response : Response) : Option CacheEntry :=
  state.revalidating.filter fun entry =>
    response.status = 304 && validatorsAgree entry.headers response.headers &&
      selectsTheSameWay entry.headers response.headers

/-- The `304` branch of `after`: the merged response goes through the storage rules again. -/
def PendingInner.revalidate (state : PendingInner) (config : CacheConfig) (entry : CacheEntry)
    (response : Response) (now : SystemTime) : List StoreOp × Reply :=
  let refreshed := entry.refreshed response.headers state.requestedAt now
  let op := match state.judge config refreshed.status refreshed.headers with
    | .ok _ => StoreOp.put state.key refreshed
    | .error _ => StoreOp.remove state.key
  ([op], revalidated refreshed (currentAge refreshed now))

/-- What is kept of a response while its body is read. -/
def PendingInner.commit (state : PendingInner) (config : CacheConfig) (names : List HeaderName)
    (response : Response) (now : SystemTime) : Commit where
  key := state.key
  status := response.status
  version := response.version
  headers := stripHopByHop response.headers
  selector := Selector.of names state.requestHeaders
  requestedAt := state.requestedAt
  receivedAt := now
  limit := config.maxBodyBytes

/-- The rest of `after`: refuse the response, or record its body. -/
def PendingInner.record (state : PendingInner) (config : CacheConfig) (response : Response)
    (now : SystemTime) : List StoreOp × Reply :=
  match state.judge config response.status response.headers with
  | .error _ =>
    -- the copy from before goes too, if the origin now forbids one or has superseded it
    if (CacheControl.of response.headers).noStore || state.revalidating.isSome then
      ([.remove state.key], response.passOn)
    else ([], response.passOn)
  | .ok names =>
    if response.length.any fun length => config.maxBodyBytes < length then
      ([], response.passOn)
    else
      ([], { response.passOn with
        body := .recording ⟨[], some (state.commit config names response now)⟩
          response.length })

/-- `HttpCache::after`: the writes it makes and the response it returns. -/
def HttpCache.after (env : Env) (config : CacheConfig) (pending : Pending) (url : Url)
    (response : Response) (now : SystemTime) : List StoreOp × Reply :=
  match pending with
  | .aside => ([], response.passOn)
  | .invalidate =>
    if response.status < 400 then
      (invalidate url :: invalidateReferenced env url response.headers, response.passOn)
    else ([], response.passOn)
  | .store state =>
    match state.confirmed response with
    | some entry => state.revalidate config entry response now
    | none => state.record config response now

/-! ## While a body is read -/

def declaresItsLength (headers : HeaderMap) (length : Nat) : Bool :=
  match get headers .contentLength with
  | none => true
  | some declared =>
    (declared.toStr.bind fun text => Text.parseUnsigned u64Max (Text.trim text)) = some length

/-- The entry a commit makes of a body. -/
def Commit.entry (commit : Commit) (body : Bytes) : CacheEntry where
  status := commit.status
  version := commit.version
  headers := commit.headers
  body := body
  selector := commit.selector
  requestedAt := commit.requestedAt
  receivedAt := commit.receivedAt

/-- One frame through `Recording::poll_next`. -/
def Recording.poll (recording : Recording) (frame : Frame) : Recording × List StoreOp :=
  match frame, recording.commit with
  | _, none => (recording, [])
  | .data chunk, some commit =>
    if commit.limit < recording.buffered.length + chunk.length then (⟨[], none⟩, [])
    else ({ recording with buffered := recording.buffered ++ chunk }, [])
  | .trailers, some _ => (recording, [])
  | .error, some _ => ({ recording with commit := none }, [])
  | .done, some commit =>
    if declaresItsLength commit.headers recording.buffered.length then
      (⟨[], none⟩, [.put commit.key (commit.entry recording.buffered)])
    else (⟨[], none⟩, [])

/-- One frame through `Draining::poll_next`; once the `304` has ended, frames no longer count. -/
def Draining.poll (draining : Draining) (frame : Frame) : Draining × Option Frame :=
  let give : Draining × Option Frame := (⟨false, none⟩, some (match draining.stored with
    | some bytes => .data bytes
    | none => .done))
  if !draining.innerOpen then give
  else
    match frame with
    | .data _ | .trailers => (draining, none)
    | .error | .done => give

/-- What the caller of a recorded body sees of a frame: trailers are passed over. -/
def recordedFrame : Frame → Option Frame
  | .trailers => none
  | frame => some frame

/-- One frame of the body underneath, through the body the caller reads: the body after it, the
writes it causes, and what the caller sees. -/
def Body.poll (body : Body) (frame : Frame) : Body × List StoreOp × Option Frame :=
  match body with
  | .incoming length => (.incoming length, [], some frame)
  | .fixed bytes => (.fixed [], [], some (if bytes.isEmpty then .done else .data bytes))
  | .recording r length => (.recording (r.poll frame).1 length, (r.poll frame).2,
      recordedFrame frame)
  | .draining d length => (.draining (d.poll frame).1 length, [], (d.poll frame).2)

/-! ## What each step can do -/

section Steps

variable {env : Env} {cache : HttpCache} {config : CacheConfig} {request : Request} {url : Url}
  {now : SystemTime} {response : Response} {key : CacheKey} {entry : CacheEntry}

/-- The variants the cache holds under a key. -/
def HttpCache.variantsAt (env : Env) (cache : HttpCache) (key : CacheKey) : List CacheEntry :=
  cache.storage.variantsAt env.process key

/-- **Writes add only what they put.** -/
theorem mem_variantsAt_perform {ops : List StoreOp} {k : CacheKey}
    (h : entry ∈ (cache.perform env ops).variantsAt env k) :
    entry ∈ cache.variantsAt env k ∨ .put k entry ∈ ops := by
  induction ops generalizing cache with
  | nil => exact Or.inl h
  | cons op ops ih =>
    have h : entry ∈ (HttpCache.perform env
        ⟨cache.storage.apply env.process op, cache.config⟩ ops).variantsAt env k := h
    rcases ih h with h | h
    · cases op with
      | put key e =>
        rcases MemoryStore.mem_variantsAt_put h with h | ⟨rfl, rfl⟩
        · exact Or.inl h
        · exact Or.inr List.mem_cons_self
      | remove key =>
        have h : entry ∈ (cache.storage.remove env.process key).variantsAt env.process k := h
        rw [MemoryStore.variantsAt_remove] at h
        split_ifs at h
        · cases h
        · exact Or.inl h
    · exact Or.inr (List.mem_cons_of_mem _ h)

theorem mem_of_select {request : HeaderMap} (h : (cache.select env key request).1 = some entry) :
    entry ∈ cache.variantsAt env key ∧ entry.selector.matchesRequest request := by
  have h : (cache.variantsAt env key).find? (fun e => e.selector.matchesRequest request) =
    some entry := h
  exact ⟨List.mem_of_find?_eq_some h, by simpa using List.find?_some h⟩

/-- What a pending request remembers of the request, which was one the cache takes part in. -/
structure Asked (request : Request) (url : Url) (state : PendingInner) : Prop where
  method : request.method = .get
  noStore : (CacheControl.ofRequest request.headers).noStore = false
  key : state.key = CacheKey.new .get url
  headers : state.requestHeaders = request.headers
  cc : state.requestCc = CacheControl.ofRequest request.headers

/-- The state a pending request is started with. -/
structure Started (env : Env) (cache : HttpCache) (request : Request) (url : Url)
    (state : PendingInner) : Prop extends Asked request url state where
  found : ∀ e, state.revalidating = some e →
    (cache.select env (CacheKey.new .get url) request.headers).1 = some e

/-- What `before` can leave and return. -/
structure BeforeSpec (env : Env) (cache : HttpCache) (request : Request) (url : Url)
    (now : SystemTime) (b : Before) : Prop where
  variants : ∀ k, b.cache.variantsAt env k = cache.variantsAt env k
  config : b.cache.config = cache.config
  pending : ∀ state, b.pending = .store state → Started env cache request url state
  served : ∀ reply, b.served = some reply → ∃ e,
    (cache.select env (CacheKey.new .get url) request.headers).1 = some e ∧
    reply = toResponse e (currentAge e now) .hit ∧
    isFresh e (CacheControl.of e.headers) cache.config now

theorem before_spec (env : Env) (cache : HttpCache) (request : Request) (url : Url)
    (now : SystemTime) :
    BeforeSpec env cache request url now (cache.before env request url now) := by
  unfold HttpCache.before
  split_ifs with haside
  · -- set aside: the store is not even read
    refine ⟨fun _ => rfl, rfl, fun state h => ?_, fun reply h => by cases h⟩
    unfold Pending.ofMethod at h
    split at h <;> cases h
  · simp only [Bool.or_eq_true, decide_eq_true_eq, not_or, Bool.not_eq_true, ne_eq,
      Decidable.not_not] at haside
    obtain ⟨⟨-, hmethod⟩, hnoStore⟩ := haside
    have hkey : (PendingInner.start request url now).key = CacheKey.new .get url := by
      rw [PendingInner.start, hmethod]
    have hvariants : ∀ k, (cache.select env (PendingInner.start request url now).key
        request.headers).2.variantsAt env k = cache.variantsAt env k :=
      fun k => MemoryStore.variantsAt_get
    have hstart : Started env cache request url (PendingInner.start request url now) :=
      ⟨⟨hmethod, hnoStore, hkey, rfl, rfl⟩, fun e he => by cases he⟩
    have hsame : ∀ state, Pending.store (PendingInner.start request url now) = .store state →
        Started env cache request url state := by
      rintro state ⟨⟩
      exact hstart
    dsimp only
    split
    · rename_i c hsel
      rw [hsel] at hvariants
      refine ⟨hvariants, ?_, hsame, fun reply h => by cases h⟩
      exact congrArg (·.2.config) hsel.symm
    · rename_i e c hsel
      have hconfig : c.config = cache.config := congrArg (·.2.config) hsel.symm
      have hfound : (cache.select env (CacheKey.new .get url) request.headers).1 = some e := by
        rw [← hkey, hsel]
      rw [hsel] at hvariants
      split_ifs with hfresh hvalid
      · refine ⟨hvariants, hconfig, hsame, ?_⟩
        rintro reply ⟨⟩
        rw [Bool.and_eq_true, hconfig] at hfresh
        exact ⟨e, hfound, rfl, hfresh.1⟩
      · exact ⟨hvariants, hconfig, hsame, fun reply h => by cases h⟩
      · refine ⟨hvariants, hconfig, ?_, fun reply h => by cases h⟩
        rintro state ⟨⟩
        refine ⟨⟨hmethod, hnoStore, hkey, rfl, rfl⟩, ?_⟩
        rintro e' ⟨⟩
        exact hfound

/-- **`after` puts an entry only for a `304` about the entry that was found**, and only once the
merged response has passed the storage rules. -/
theorem put_of_after {pending : Pending}
    (h : .put key entry ∈ (HttpCache.after env config pending url response now).1) :
    ∃ state found names, pending = .store state ∧ key = state.key ∧
      state.revalidating = some found ∧ response.status = 304 ∧
      selectsTheSameWay found.headers response.headers ∧
      entry = found.refreshed response.headers state.requestedAt now ∧
      state.judge config entry.status entry.headers = .ok names := by
  cases pending with
  | aside => cases h
  | invalidate =>
    rw [HttpCache.after] at h
    split_ifs at h
    · exfalso
      rcases List.mem_cons.mp h with h | h
      · cases h
      · obtain ⟨name, -, h⟩ := List.mem_filterMap.mp h
        obtain ⟨value, -, h⟩ := Option.bind_eq_some_iff.mp h
        obtain ⟨text, -, h⟩ := Option.bind_eq_some_iff.mp h
        obtain ⟨target, -, h⟩ := Option.bind_eq_some_iff.mp h
        split_ifs at h
        cases h
    · cases h
  | store state =>
    rw [HttpCache.after] at h
    cases hconf : state.confirmed response with
    | none =>
      simp only [hconf, PendingInner.record] at h
      split at h <;> split_ifs at h <;> simp at h
    | some found =>
      simp only [hconf, PendingInner.revalidate, List.mem_singleton] at h
      split at h
      · rename_i names hjudge
        cases h
        obtain ⟨hfound, hcond⟩ := Option.filter_eq_some_iff.mp hconf
        simp only [Bool.and_eq_true, decide_eq_true_eq] at hcond
        exact ⟨state, found, names, rfl, rfl, hfound, hcond.1.1, hcond.2, rfl, hjudge⟩
      · cases h

variable {recording : Recording}

/-- **`after` records a body only for a response that passes the storage rules.** -/
theorem recording_of_after {pending : Pending} {length : Option Nat}
    (h : (HttpCache.after env config pending url response now).2.body =
      .recording recording length) :
    ∃ state names, pending = .store state ∧
      recording = ⟨[], some (state.commit config names response now)⟩ ∧
      state.judge config response.status response.headers = .ok names := by
  cases pending with
  | aside => cases h
  | invalidate =>
    rw [HttpCache.after] at h
    split_ifs at h <;> cases h
  | store state =>
    rw [HttpCache.after] at h
    cases hconf : state.confirmed response with
    | some found => simp only [hconf] at h; cases h
    | none =>
      simp only [hconf, PendingInner.record] at h
      split at h
      · split_ifs at h <;> cases h
      · rename_i names hjudge
        split_ifs at h <;> cases h
        exact ⟨state, names, rfl, rfl, hjudge⟩

/-- The bytes of the data frames, in order. -/
def dataOf (frames : List Frame) : Bytes :=
  frames.flatMap fun frame => match frame with
    | .data chunk => chunk
    | _ => []

/-- **A recorded body puts its entry at the end**, made of what it has buffered. -/
theorem put_of_recording {frame : Frame} (h : .put key entry ∈ (recording.poll frame).2) :
    frame = .done ∧ ∃ commit, recording.commit = some commit ∧ key = commit.key ∧
      entry = commit.entry recording.buffered := by
  unfold Recording.poll at h
  split at h
  · cases h
  · split_ifs at h <;> cases h
  · cases h
  · cases h
  · rename_i commit hcommit
    split_ifs at h
    · cases List.mem_singleton.mp h
      exact ⟨rfl, commit, hcommit, rfl, rfl⟩
    · cases h

theorem commit_of_recording {frame : Frame} {commit : Commit}
    (h : (recording.poll frame).1.commit = some commit) :
    recording.commit = some commit ∧
      (recording.poll frame).1.buffered = recording.buffered ++ dataOf [frame] := by
  unfold Recording.poll at h ⊢
  split at h
  · rename_i hnone
    rw [hnone] at h
    cases h
  · rename_i c hcommit
    split_ifs at h with hlimit
    exact ⟨h, by simp [hcommit, hlimit, dataOf]⟩
  · exact ⟨h, by simp_all [dataOf]⟩
  · cases h
  · split_ifs at h

end Steps

end Chromulate.Cache
