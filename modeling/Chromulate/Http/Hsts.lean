import Chromulate.Core.Request
import Chromulate.Lib.Ip
import Chromulate.Lib.Select
import Chromulate.Lib.Table
import Chromulate.Lib.Time

/-!
# Strict transport security

`HstsStore` in `chromulate-http/src/hsts.rs`: the hosts that asked for HTTPS, and the upgrade of a
URL. The preload table is compiled in or not; here it is a predicate on host names.

A store that is not written to applies less and less: what it applies to now, it applied to at any
earlier instant (`appliesTo_of_le`). What `upgrade` leaves is never a plain-text URL of a host to
which the store applies (`not_exposes_upgrade`).
-/

namespace Chromulate.Http

open Text

/-- One host's policy. -/
structure Policy where
  expires : SystemTime
  includeSubdomains : Bool
  deriving DecidableEq

structure HstsStore where
  hosts : Table Str Policy
  capacity : Nat

namespace HstsStore

open Table (Scan)

def defaultHostCapacity : Nat := 10000

def withCapacity (capacity : Nat) : HstsStore where
  hosts := ∅
  capacity := max capacity 1

def new : HstsStore := withCapacity defaultHostCapacity

/-- `far_future`: about the year 4000. -/
def farFuture : SystemTime :=
  (SystemTime.checkedAdd 0 (Duration.fromSecs 64000000000)).getD 0

/-- `canonical_name`: without the root label, and `none` with any other empty label. -/
def canonicalName (host : Str) : Option Str :=
  let host := (stripSuffix ['.'] host).getD host
  if host.isEmpty || (host.splitOn '.').any List.isEmpty then none else some host

def isIpLiteral (host : Str) : Bool := Ip.isLiteral host

/-! ## The header -/

structure Directive where
  maxAge : Nat
  includeSubdomains : Bool
  deriving DecidableEq

/-- One directive of the header: what has been seen of `max-age` and of `includeSubDomains`. A
`max-age` without a value ends the reading. -/
def readDirective (seen : Option Nat × Bool) (token : Str) : Option (Option Nat × Bool) :=
  let token := trim token
  let (name, argument) := match splitOnce '=' token with
    | some (name, argument) => (trim name, some (trim argument))
    | none => (token, none)
  if toAsciiLowercase name = "max-age".toList then do
    let argument ← argument
    let digits := trimMatches (· == '"') argument
    some (parseUnsigned (2 ^ 64 - 1) digits, seen.2)
  else if toAsciiLowercase name = "includesubdomains".toList then some (seen.1, true)
  else some seen

def parse (value : Str) : Option Directive := do
  let (maxAge, includeSubdomains) ← (value.splitOn ';').foldlM readDirective (none, false)
  let maxAge ← maxAge
  some ⟨maxAge, includeSubdomains⟩

/-! ## The store -/

/-- `min_by_key(expires)` over the entries in the order they are yielded. -/
def soonest (scan : Scan Str Policy) (hosts : Table Str Policy) : Option Str :=
  (Select.minByKey (fun entry => entry.2.expires) (scan.run hosts)).map Sigma.fst

/-- The loop of `evict`, at most so many times round. -/
def dropSoonest (scan : Scan Str Policy) (capacity : Nat) :
    Nat → Table Str Policy → Table Str Policy
  | 0, hosts => hosts
  | fuel + 1, hosts =>
    if hosts.entries.length ≤ capacity then hosts
    else
      match soonest scan hosts with
      | some host => dropSoonest scan capacity fuel (hosts.erase host)
      | none => hosts

/-- `evict`: what has run out, then what runs out first. -/
def evict (scan : Scan Str Policy) (store : HstsStore) (now : SystemTime) : HstsStore :=
  if store.hosts.entries.length ≤ store.capacity then store
  else
    let hosts := store.hosts.retain fun _ policy => now < policy.expires
    { store with hosts := dropSoonest scan store.capacity hosts.entries.length hosts }

/-- A header value that was seen from a host, and the order in which the table yields its entries
then. -/
structure Seen where
  host : Str
  value : Str
  overTls : Bool
  now : SystemTime
  scan : Scan Str Policy

/-- The policy that a header asks for. -/
def Directive.policy (directive : Directive) (now : SystemTime) : Policy where
  expires := (SystemTime.checkedAdd now (Duration.fromSecs directive.maxAge)).getD farFuture
  includeSubdomains := directive.includeSubdomains

/-- `HstsStore::record`. -/
def recordWith (store : HstsStore) (seen : Seen) : HstsStore :=
  if !seen.overTls then store
  else
    match canonicalName seen.host with
    | none => store
    | some host =>
      if isIpLiteral host then store
      else
        match parse seen.value with
        | none => store
        | some directive =>
          let host := toAsciiLowercase host
          if directive.maxAge = 0 then { store with hosts := store.hosts.erase host }
          else
            let policy := directive.policy seen.now
            evict seen.scan { store with hosts := store.hosts.insert host policy } seen.now

/-- The same, with the entries in the order they are listed. -/
def record (store : HstsStore) (host value : Str) (overTls : Bool) (now : SystemTime) :
    HstsStore :=
  store.recordWith ⟨host, value, overTls, now, .listed⟩

/-- The names above a name. -/
def parents : Str → List Str
  | [] => []
  | c :: rest => if c = '.' then rest :: parents rest else parents rest

/-! ### Names -/

/-- A host without its root label, which is one dot at its end. -/
def withoutRoot (host : Str) : Str := if host.getLast? = some '.' then host.dropLast else host

/-- That a name is above another: the other, up to a dot, and then it. -/
def Above (parent name : Str) : Prop := ∃ front, name = front ++ '.' :: parent

theorem stripSuffix_getD (host : Str) :
    (stripSuffix ['.'] host).getD host = withoutRoot host := by
  unfold withoutRoot
  split_ifs with hlast
  · obtain ⟨t, rfl⟩ := endsWith_iff.mp (by rw [endsWith, hlast, beq_self_eq_true])
    rw [stripSuffix_concat, Option.getD_some, List.dropLast_concat]
  · rw [stripSuffix_eq_none, Option.getD_none]
    rw [endsWith, beq_eq_false_iff_ne]
    exact hlast

variable {host name : Str} {earlier now : SystemTime} {store : HstsStore} {url : Url}

/-- A host has a canonical name if no label of it but the root is empty. -/
theorem canonicalName_eq_some :
    canonicalName host = some name ↔
      name = withoutRoot host ∧ ∀ label ∈ name.splitOn '.', label ≠ [] := by
  simp only [canonicalName, stripSuffix_getD]
  have hempty : (withoutRoot host).isEmpty →
      ((withoutRoot host).splitOn '.').any List.isEmpty := by
    intro h
    rw [List.isEmpty_iff.mp h]
    decide
  have hany : ((withoutRoot host).isEmpty || ((withoutRoot host).splitOn '.').any List.isEmpty) =
      ((withoutRoot host).splitOn '.').any List.isEmpty := by
    cases h : (withoutRoot host).isEmpty with
    | false => rfl
    | true => rw [hempty h, Bool.or_self]
  rw [hany]
  split_ifs with h
  · simp only [false_iff, not_and]
    rintro rfl hlabels
    obtain ⟨label, hmem, hnil⟩ := List.any_eq_true.mp h
    exact hlabels label hmem (List.isEmpty_iff.mp hnil)
  · rw [Option.some.injEq]
    constructor
    · rintro rfl
      refine ⟨rfl, fun label hmem hnil => h ?_⟩
      exact List.any_eq_true.mpr ⟨label, hmem, List.isEmpty_iff.mpr hnil⟩
    · exact fun heq => heq.1.symm

theorem mem_parents {parent : Str} : parent ∈ parents name ↔ Above parent name := by
  induction name with
  | nil => simp [parents, Above]
  | cons c rest ih =>
    have hcons : Above parent (c :: rest) ↔ (c = '.' ∧ parent = rest) ∨ Above parent rest := by
      constructor
      · rintro ⟨front, hfront⟩
        cases front with
        | nil =>
          injection hfront with hc hrest
          exact Or.inl ⟨hc, hrest.symm⟩
        | cons d front =>
          injection hfront with hc hrest
          exact Or.inr ⟨front, hrest⟩
      · rintro (⟨rfl, rfl⟩ | ⟨front, rfl⟩)
        · exact ⟨[], rfl⟩
        · exact ⟨c :: front, rfl⟩
    rw [hcons, ← ih, parents]
    split_ifs with hdot <;> simp [hdot]

theorem parents_toAsciiLowercase (name : Str) :
    parents (toAsciiLowercase name) = (parents name).map toAsciiLowercase := by
  induction name with
  | nil => rfl
  | cons c rest ih =>
    have hdot : c.toLower = '.' ↔ c = '.' := toLower_eq_iff rfl
    rw [toAsciiLowercase] at ih ⊢
    simp only [List.map_cons, parents, hdot, ih]
    split_ifs
    · rfl
    · rfl

theorem canonicalName_toAsciiLowercase (h : canonicalName host = some name) :
    canonicalName (toAsciiLowercase name) = some (toAsciiLowercase name) := by
  obtain ⟨-, hlabels⟩ := canonicalName_eq_some.mp h
  refine canonicalName_eq_some.mpr ⟨?_, ?_⟩
  · -- a dot at the end would leave an empty label behind it
    rw [withoutRoot, if_neg]
    intro hlast
    rw [← beq_iff_eq, ← endsWith, endsWith_toAsciiLowercase] at hlast
    obtain ⟨front, rfl⟩ := endsWith_iff.mp hlast
    exact hlabels [] (by simp [splitOn_concat]) rfl
  · intro label hmem
    rw [splitOn_toAsciiLowercase rfl] at hmem
    obtain ⟨piece, hpiece, rfl⟩ := List.mem_map.mp hmem
    intro hnil
    exact hlabels piece hpiece (List.map_eq_nil_iff.mp hnil)

/-- Whether the store has a policy for a name that has not run out and, for a parent, covers its
subdomains. -/
def covers (store : HstsStore) (now : SystemTime) (parent : Bool) (name : Str) : Bool :=
  match store.hosts.lookup name with
  | some policy => (!parent || policy.includeSubdomains) && now < policy.expires
  | none => false

def appliesTo (preload : Str → Bool) (store : HstsStore) (host : Str) (now : SystemTime) : Bool :=
  match canonicalName host with
  | none => false
  | some host =>
    if isIpLiteral host then false
    else
      let host := toAsciiLowercase host
      store.covers now false host || (parents host).any (store.covers now true) || preload host

/-- `HstsStore::upgrade`: the URL it leaves. -/
def upgrade (crate : UrlCrate) (preload : Str → Bool) (store : HstsStore) (url : Url)
    (now : SystemTime) : Url :=
  if url.scheme ≠ "http".toList then url
  else
    match url.host with
    | none => url
    | some host =>
      if !store.appliesTo preload host now then url
      else
        match crate.setHttps url with
        | none => url
        | some changed => if url.port = some 80 then crate.clearPort changed else changed

/-- Whether a connection is made without TLS: `origin.is_secure()` decides. -/
def isPlaintext (url : Url) : Bool := (Origin.ofUrl url).any fun origin => !origin.isSecure

/-- Whether a connection for a URL is made in plain text although the store applies to its host. -/
def exposes (preload : Str → Bool) (store : HstsStore) (url : Url) (now : SystemTime) : Bool :=
  isPlaintext url && url.host.any (store.appliesTo preload · now)

theorem covers_of_le (h : earlier ≤ now) {parent : Bool} (hcovers : store.covers now parent name) :
    store.covers earlier parent name := by
  unfold covers at hcovers ⊢
  cases hlookup : store.hosts.lookup name with
  | none =>
    rw [hlookup] at hcovers
    cases hcovers
  | some policy =>
    simp only [hlookup, Bool.and_eq_true, decide_eq_true_eq] at hcovers ⊢
    exact ⟨hcovers.1, Int.lt_of_le_of_lt h hcovers.2⟩

/-- **A policy only ever runs out**, so a store left alone never comes to apply. -/
theorem appliesTo_of_le {preload : Str → Bool} (h : earlier ≤ now)
    (happlies : store.appliesTo preload host now) : store.appliesTo preload host earlier := by
  unfold appliesTo at happlies ⊢
  cases hname : canonicalName host with
  | none =>
    rw [hname] at happlies
    cases happlies
  | some name =>
    simp only [hname] at happlies ⊢
    split at happlies
    · cases happlies
    · rename_i hliteral
      rw [if_neg hliteral]
      simp only [Bool.or_eq_true, List.any_eq_true] at happlies ⊢
      rcases happlies with (hself | ⟨parent, hparent, hcovers⟩) | hpreload
      · exact Or.inl (Or.inl (covers_of_le h hself))
      · exact Or.inl (Or.inr ⟨parent, hparent, covers_of_le h hcovers⟩)
      · exact Or.inr hpreload

theorem exposes_of_le {preload : Str → Bool} (h : earlier ≤ now)
    (hexposes : store.exposes preload url now) : store.exposes preload url earlier := by
  unfold exposes at hexposes ⊢
  rw [Bool.and_eq_true] at hexposes ⊢
  refine ⟨hexposes.1, ?_⟩
  cases hhost : url.host with
  | none =>
    rw [hhost] at hexposes
    cases hexposes.2
  | some host =>
    rw [hhost] at hexposes
    exact appliesTo_of_le h hexposes.2

theorem isPlaintext_of_https (h : url.scheme = "https".toList) : isPlaintext url = false := by
  unfold isPlaintext Origin.ofUrl
  cases url.host with
  | none => rfl
  | some host =>
    cases url.portOrKnownDefault with
    | none => rfl
    | some port =>
      simp only [Option.bind_eq_bind, Option.bind_some, Option.any_some, h]
      rfl

/-- An upgraded `http` URL is an `https` one, or one the store does not apply to. -/
theorem upgrade_of_http (crate : UrlCrate) (preload : Str → Bool) (store : HstsStore)
    (now : SystemTime) (h : url.scheme = "http".toList) :
    (store.upgrade crate preload url now).scheme = "https".toList ∨
      store.upgrade crate preload url now = url ∧
        ¬ url.host.any (store.appliesTo preload · now) := by
  unfold upgrade
  rw [if_neg (not_not.mpr h)]
  cases hhost : url.host with
  | none => exact Or.inr ⟨rfl, Bool.false_ne_true⟩
  | some host =>
    cases happlies : store.appliesTo preload host now with
    | false =>
      refine Or.inr ⟨by simp [happlies], ?_⟩
      simp [happlies]
    | true =>
      left
      have hsome := crate.setHttps_of_http url h (by rw [hhost]; rfl)
      cases hset : crate.setHttps url with
      | none =>
        rw [hset] at hsome
        cases hsome
      | some changed =>
        have hscheme := crate.scheme_setHttps url changed hset
        simp only [happlies, Bool.not_true, Bool.false_eq_true, if_false]
        split
        · exact (crate.scheme_clearPort changed).trans hscheme
        · exact hscheme

/-- **No upgraded URL is exposed**, if it was an `http` or an `https` one. -/
theorem not_exposes_upgrade (crate : UrlCrate) (preload : Str → Bool) (store : HstsStore)
    (now : SystemTime) (h : url.scheme = "http".toList ∨ url.scheme = "https".toList) :
    ¬ store.exposes preload (store.upgrade crate preload url now) now := by
  intro hexposes
  rw [exposes, Bool.and_eq_true] at hexposes
  rcases h with hhttp | hhttps
  · rcases upgrade_of_http crate preload store now hhttp with hscheme | ⟨hsame, hnot⟩
    · rw [isPlaintext_of_https hscheme] at hexposes
      cases hexposes.1
    · rw [hsame] at hexposes
      exact hnot hexposes.2
  · have hsame : store.upgrade crate preload url now = url := by
      unfold upgrade
      rw [if_pos]
      rw [hhttps]
      decide
    rw [hsame, isPlaintext_of_https hhttps] at hexposes
    cases hexposes.1

end HstsStore

end Chromulate.Http
