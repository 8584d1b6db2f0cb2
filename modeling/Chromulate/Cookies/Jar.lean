import Chromulate.Cookies.Store

/-!
# The jar

`chromulate-cookie/src/jar.rs`: the three calls on a jar (`store`, `cookies_for`, `import`) and
their runs. A call takes the clock's reading as an argument; the `RwLock` makes the calls
sequential, so a run is a list of them.

`store` works header by header. `applySetCookie` is the step on one bucket, `storeCookie` the
step on the jar, `storeHeaders` the loop, and two clean-ups follow it. `import` has the same
shape, with `importRecord` for the step.
-/

namespace Chromulate.Cookies

open PublicSuffix Select Text

/-! ## Limits -/

def usizeMax : Nat := 2 ^ 64 - 1

structure JarLimits where
  perDomain : Nat := 180
  total : Nat := 3000

namespace JarLimits

def purgeBatch (limits : JarLimits) : Nat := limits.total / 10

def purgeTarget (limits : JarLimits) : Nat := limits.total - limits.purgeBatch

def domainPurgeBatch (limits : JarLimits) : Nat := limits.perDomain / 6

def domainPurgeTarget (limits : JarLimits) : Nat := limits.perDomain - limits.domainPurgeBatch

/-- The bucket length a response is trimmed at while it is still being applied. -/
def holdDownAt (limits : JarLimits) : Nat := min (limits.perDomain * 2) usizeMax

end JarLimits

/-! ## State -/

/-- What the crate is linked against: the rules of the public suffix list, and the standard
library's selection. -/
structure Env where
  rules : List (Rule Str)
  select : SelectNth

/-- The two atomic counters of a jar; `fetch_add` returns the value before and wraps. -/
structure Counters where
  nextCreationSeq : UInt64 := 0
  nextAccessSeq : UInt64 := 0
  deriving DecidableEq

/-- `Jar`, without its clock. -/
structure Jar extends Counters where
  entries : Store := {}
  limits : JarLimits

def Jar.withLimits (limits : JarLimits) : Jar := { limits }

instance : Membership Entry Jar := ⟨fun jar entry => entry ∈ jar.entries⟩

theorem Jar.mem_def {jar : Jar} {e : Entry} : e ∈ jar ↔ e ∈ jar.entries := Iff.rfl

/-! ## Storing -/

/-- The "Leave Secure Cookies Alone" check of `apply_set_cookie`. -/
def isShielded (bucket : Bucket) (existing : Option Nat) (requestIsSecure : Bool) : Bool :=
  match existing with
  | some position => (bucket.get position).any (·.cookie.secure) && !requestIsSecure
  | none => false

def applySetCookie (bucket : Bucket) (cookie : Cookie) (now : SystemTime)
    (requestIsSecure : Bool) (seqs : Counters) : Bucket × Counters :=
  let existing := bucket.positionOf cookie.name cookie.domain cookie.path
  if isShielded bucket existing requestIsSecure then (bucket, seqs)
  else if cookie.isExpired now then
    match existing with
    | some position => (bucket.remove position, seqs)
    | none => (bucket, seqs)
  else
    match existing with
    | some position =>
      let creationSeq := ((bucket.get position).map Entry.creationSeq).getD 0
      (bucket.replace position ⟨cookie, creationSeq, seqs.nextAccessSeq⟩,
        { seqs with nextAccessSeq := seqs.nextAccessSeq + 1 })
    | none =>
      (bucket.push ⟨cookie, seqs.nextCreationSeq, seqs.nextAccessSeq⟩,
        { nextCreationSeq := seqs.nextCreationSeq + 1
          nextAccessSeq := seqs.nextAccessSeq + 1 })

/-- The two clean-ups of a bucket past a bound: expired entries first, then the least recently
used. -/
def holdDown (env : Env) (now : SystemTime) (bound keep : Nat) (bucket : Bucket) : Bucket :=
  if bucket.len > bound then (bucket.removeExpired now).trimTo env.select keep else bucket

namespace Jar

variable (env : Env)

/-- One accepted cookie of a response. -/
def storeCookie (jar : Jar) (now : SystemTime) (requestIsSecure : Bool) (cookie : Cookie) : Jar :=
  let site := siteOf env.rules cookie.domain
  let result := jar.entries.withSite site fun bucket =>
    let (bucket, seqs) := applySetCookie bucket cookie now requestIsSecure jar.toCounters
    (holdDown env now jar.limits.holdDownAt jar.limits.perDomain bucket, seqs)
  { jar with entries := result.1, toCounters := result.2 }

/-- One `Set-Cookie` header of a response: the jar after it, and the sites touched so far. -/
def storeHeader (origin : Origin) (requestPath : Str) (now : SystemTime)
    (state : Jar × List Str) (header : HeaderValue) : Jar × List Str :=
  match Cookie.parse env.rules header origin.host requestPath origin.isSecure now with
  | none => state
  | some cookie =>
    let site := siteOf env.rules cookie.domain
    (state.1.storeCookie env now origin.isSecure cookie,
      if site ∈ state.2 then state.2 else state.2 ++ [site])

/-- The loop over the headers of a response. -/
def storeHeaders (origin : Origin) (requestPath : Str) (now : SystemTime) (jar : Jar)
    (headers : List HeaderValue) : Jar × List Str :=
  headers.foldl (storeHeader env origin requestPath now) (jar, [])

/-- The clean-up of one touched bucket. -/
def tidySite (now : SystemTime) (jar : Jar) (site : Str) : Jar :=
  let result := jar.entries.withSite site fun bucket =>
    (holdDown env now jar.limits.perDomain jar.limits.domainPurgeTarget bucket, ())
  { jar with entries := result.1 }

/-- `enforce_total` with the jar's own limits. -/
def enforceTotal (now : SystemTime) (jar : Jar) : Jar :=
  { jar with entries := jar.entries.enforceTotal now jar.limits.total jar.limits.purgeTarget }

def store (jar : Jar) (url : Url) (setCookie : List HeaderValue) (now : SystemTime) : Jar :=
  match Origin.ofUrl url with
  | none => jar
  | some origin =>
    let (stored, touched) := storeHeaders env origin url.path now jar setCookie
    (touched.foldl (tidySite env now) stored).enforceTotal now

/-! ## Looking up -/

/-- The three filters of `cookies_for`. -/
def eligible (origin : Origin) (requestPath : Str) (context : CookieContext) (now : SystemTime)
    (entry : Entry) : Bool :=
  !entry.cookie.isExpired now &&
    entry.cookie.appliesTo origin.host requestPath origin.isSecure &&
    entry.cookie.sameSiteEligible env.rules origin.host context

/-- RFC 6265 §5.4: longer paths first; ties broken by earlier creation first. -/
def servedBefore (a b : Entry) : Prop :=
  byteLen b.cookie.path < byteLen a.cookie.path ∨
    byteLen a.cookie.path = byteLen b.cookie.path ∧ a.creationSeq ≤ b.creationSeq

instance : DecidableRel servedBefore := fun _ _ => by unfold servedBefore; infer_instance

/-- The cookies `cookies_for` puts in the header, in order. -/
def served (jar : Jar) (origin : Origin) (requestPath : Str) (context : CookieContext)
    (now : SystemTime) : List Entry :=
  let bucket := jar.entries.bucketAt (siteOf env.rules origin.host)
  (bucket.entries.filter (eligible env origin requestPath context now)).insertionSort servedBefore

/-- `name=value`. -/
def pairText (entry : Entry) : Str := entry.cookie.name ++ '=' :: entry.cookie.value

/-- The joined text of a `Cookie` header. -/
def joinedText (entries : List Entry) : Str := join "; ".toList (entries.map pairText)

/-- The header for the cookies served; the second attempt leaves out what a header cannot hold. -/
def headerOf (entries : List Entry) : Option HeaderValue :=
  match HeaderValue.fromStr (joinedText entries) with
  | some header => some header
  | none =>
    let kept := entries.filter fun e => isRepresentable e.cookie.name e.cookie.value
    if kept.isEmpty then none else HeaderValue.fromStr (joinedText kept)

/-- Every cookie served was accessed at the same moment. -/
def recordAccess (jar : Jar) (origin : Origin) (requestPath : Str) (context : CookieContext)
    (now : SystemTime) : Jar :=
  let touch (entry : Entry) : Entry :=
    if eligible env origin requestPath context now entry then
      { entry with lastAccessSeq := jar.nextAccessSeq }
    else entry
  { jar with
    entries := jar.entries.mapSite (siteOf env.rules origin.host) touch
    nextAccessSeq := jar.nextAccessSeq + 1 }

def cookiesFor (jar : Jar) (url : Url) (context : CookieContext) (now : SystemTime) :
    Option HeaderValue × Jar :=
  match Origin.ofUrl url with
  | none => (none, jar)
  | some origin =>
    let entries := jar.served env origin url.path context now
    if entries.isEmpty then (none, jar)
    else (headerOf entries, jar.recordAccess env origin url.path context now)

/-! ## Importing -/

end Jar

structure CookieRecord where
  name : Str
  value : Str
  domain : Str
  hostOnly : Bool
  path : Str
  secure : Bool
  httpOnly : Bool
  sameSite : SameSite
  partitioned : Bool
  expires : Option Int
  creationSeq : UInt64
  lastAccessSeq : UInt64

/-- The cookie a record describes. -/
def CookieRecord.cookie (record : CookieRecord) : Cookie where
  name := record.name
  value := record.value
  domain := record.domain
  hostOnly := record.hostOnly
  path := record.path
  secure := record.secure
  httpOnly := record.httpOnly
  sameSite := record.sameSite
  partitioned := record.partitioned
  expires := record.expires.map Date.epochSecondsToSystemTime

def CookieRecord.entry (record : CookieRecord) : Entry :=
  ⟨record.cookie, record.creationSeq, record.lastAccessSeq⟩

/-- The three checks of `import`. -/
def CookieRecord.isAdmitted (record : CookieRecord) (now : SystemTime) : Bool :=
  !record.cookie.isExpired now && isRepresentable record.name record.value &&
    keepsNamePrefixPromise record.name record.secure record.hostOnly record.path

/-- `u64::saturating_add(1)`. -/
def saturatingSucc (n : UInt64) : UInt64 := if n + 1 = 0 then n else n + 1

/-- The insertion of `import`: an entry of the same identity gives way. -/
def Bucket.adopt (bucket : Bucket) (entry : Entry) : Bucket :=
  match bucket.positionOf entry.cookie.name entry.cookie.domain entry.cookie.path with
  | some position => (bucket.remove position).push entry
  | none => bucket.push entry

namespace Jar

variable (env : Env)

/-- One record of a snapshot. -/
def importRecord (now : SystemTime) (jar : Jar) (record : CookieRecord) : Jar :=
  if record.isAdmitted now then
    let site := siteOf env.rules record.domain
    let result := jar.entries.withSite site fun bucket => (bucket.adopt record.entry, ())
    { jar with
      entries := result.1
      nextCreationSeq := max jar.nextCreationSeq (saturatingSucc record.creationSeq)
      nextAccessSeq := max jar.nextAccessSeq (saturatingSucc record.lastAccessSeq) }
  else jar

/-- `Jar::import`. -/
def importSnapshot (jar : Jar) (snapshot : List CookieRecord) (now : SystemTime) : Jar :=
  let loaded := snapshot.foldl (importRecord env now) jar
  let tidied := { loaded with
    entries := loaded.entries.tidyEverySite env.select now loaded.limits.perDomain }
  tidied.enforceTotal now

/-! ## Runs -/

/-- A call on a jar. -/
inductive Call where
  | store (url : Url) (setCookie : List HeaderValue)
  | cookiesFor (url : Url) (context : CookieContext)
  | importSnapshot (snapshot : List CookieRecord)

/-- One call, at the instant the clock showed. -/
def step (jar : Jar) (call : Call × SystemTime) : Jar :=
  match call.1 with
  | .store url setCookie => jar.store env url setCookie call.2
  | .cookiesFor url context => (jar.cookiesFor env url context call.2).2
  | .importSnapshot snapshot => jar.importSnapshot env snapshot call.2

/-- A run of calls. -/
def run (jar : Jar) (calls : List (Call × SystemTime)) : Jar := calls.foldl (step env) jar

end Jar

end Chromulate.Cookies
