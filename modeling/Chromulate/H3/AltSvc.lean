import Chromulate.Core.Uri
import Chromulate.Lib.History
import Chromulate.Lib.QuotedList
import Chromulate.Lib.Select
import Chromulate.Lib.Table
import Chromulate.Lib.Time
import Chromulate.Lib.Utf8

/-!
# The cache of alternative services

`chromulate-h3/src/alt_svc.rs`: the `Alt-Svc` header and what is remembered of it for each origin.

Recording a field is described by what the cache answers from then on (`alternatives_record`): an
origin answers from the field, or with nothing if it was displaced, or as before. So after any run
of calls each origin answers from the last field recorded for it (`answers_run`), and there are
never more origins than the capacity (`Bounded.run`).

An origin is displaced when the cache is full of live origins and a new one is recorded, and it is
the one whose *first* alternative to expire expires soonest, for a field that may be dead on
arrival. `Bounded.spares_iff` says when that is the origin of least use: the new field has an
alternative that is live, and whoever holds the alternative that expires soonest also has its last
one expire no later than anyone else's.
-/

namespace Chromulate.H3

open Table (Scan)

/-! ## The header -/

def defaultMaxAge : Duration := Duration.fromSecs 86400

/-- `Alternative`: one `alt-value`. -/
structure Alternative where
  protocolId : Str
  host : Option Str
  port : Nat
  maxAge : Duration
  persist : Bool
  deriving DecidableEq

/-- `AltSvc`: a parsed field value. -/
inductive AltSvc where
  | clear
  | alternatives (list : List Alternative)

/-- The crate `percent_encoding`, of which nothing is assumed. -/
class PercentEncoding where
  percentDecode : Bytes → Bytes

namespace AltSvc

variable [PercentEncoding]

def splitOutsideQuotes (input : Str) (sep : Char) : List Str := QuotedList.elements sep input

def isTchar (c : Char) : Bool := c.isAlphanum || "!#$%&'*+-.^_`|~".toList.contains c

def decodeProtocolId (raw : Str) : Option Str :=
  if raw.isEmpty || !raw.all isTchar then none
  else do
    let decoded ← Utf8.fromUtf8 (PercentEncoding.percentDecode (Bytes.ofStr raw))
    if decoded.isEmpty then none else some decoded

/-- The inside of a quoted string without its backslashes, where the flag says whether the last
character was one. -/
def unescape : Bool → Str → Option Str
  | escaped, [] => if escaped then none else some []
  | true, c :: rest => (unescape false rest).map (c :: ·)
  | false, c :: rest =>
    if c = '\\' then unescape true rest
    else if c = '"' then none
    else (unescape false rest).map (c :: ·)

def unquote (raw : Str) : Option Str :=
  match raw with
  | '"' :: rest => if rest.getLast? = some '"' then unescape false rest.dropLast else none
  | _ => some raw

/-- The position of the last colon outside square brackets. -/
def lastColon : Int → Nat → Option Nat → Str → Option Nat
  | _, _, found, [] => found
  | depth, index, found, c :: rest =>
    if c = '[' then lastColon (depth + 1) (index + 1) found rest
    else if c = ']' then lastColon (depth - 1) (index + 1) found rest
    else if c = ':' ∧ depth = 0 then lastColon depth (index + 1) (some index) rest
    else lastColon depth (index + 1) found rest

def parseAltAuthority (authority : Str) : Option (Option Str × Nat) := do
  let splitAt ← lastColon 0 0 none authority
  let host := authority.take splitAt
  let port ← Text.parseUnsigned (2 ^ 16 - 1) (authority.drop (splitAt + 1))
  some (if host.isEmpty then none else some (Text.toAsciiLowercase host), port)

/-- One parameter of an `alt-value`. -/
def readParameter (read : Duration × Bool) (parameter : Str) : Duration × Bool :=
  match Text.splitOnce '=' (Text.trim parameter) with
  | none => read
  | some (name, raw) =>
    match unquote (Text.trim raw) with
    | none => read
    | some value =>
      let name := Text.toAsciiLowercase (Text.trim name)
      if name = "ma".toList then
        match Text.parseUnsigned (2 ^ 64 - 1) value with
        | some seconds => (Duration.fromSecs seconds, read.2)
        | none => read
      else if name = "persist".toList then (read.1, value = "1".toList)
      else read

def parseAltValue (element : Str) : Option Alternative :=
  if element.isEmpty then none
  else
    match splitOutsideQuotes element ';' with
    | [] => none
    | head :: parameters => do
      let (protocolId, authority) ← Text.splitOnce '=' (Text.trim head)
      let protocolId ← decodeProtocolId (Text.trim protocolId)
      let unquoted ← unquote (Text.trim authority)
      let (host, port) ← parseAltAuthority unquoted
      let (maxAge, persist) := parameters.foldl readParameter (defaultMaxAge, false)
      some ⟨protocolId, host, port, maxAge, persist⟩

def parse (value : Str) : AltSvc :=
  let trimmed := Text.trim value
  if trimmed = "clear".toList then .clear
  else
    .alternatives ((splitOutsideQuotes trimmed ',').filterMap fun element =>
      parseAltValue (Text.trim element))

end AltSvc

/-! ## The cache -/

structure CachedAlternative where
  alternative : Alternative
  expiresAt : SystemTime
  deriving DecidableEq

def CachedAlternative.isLive (now : SystemTime) (entry : CachedAlternative) : Bool :=
  now < entry.expiresAt

def asciiSerialization (origin : Origin) : Str :=
  let defaultPort :=
    if origin.scheme = "http".toList ∨ origin.scheme = "ws".toList then 80
    else if origin.scheme = "https".toList ∨ origin.scheme = "wss".toList then 443
    else 0
  let site := origin.scheme ++ "://".toList ++ origin.host
  if origin.port = defaultPort then site else site ++ ":".toList ++ Text.decimal origin.port

inductive AltSvcError where
  | insecureOrigin (origin : Str)
  deriving DecidableEq

/-- An order in which the table of the cache may yield its entries. -/
abbrev Order := Scan Origin (List CachedAlternative)

structure AltSvcCache where
  entries : Table Origin (List CachedAlternative)
  capacity : Nat

/-- What is remembered of a field that was seen at an instant: the alternatives that expire at an
instant there is. -/
def remembered [PercentEncoding] (value : Str) (now : SystemTime) : List CachedAlternative :=
  let advertised := match AltSvc.parse value with
    | .clear => []
    | .alternatives list => list
  advertised.filterMap fun alternative =>
    (SystemTime.checkedAdd now alternative.maxAge).map fun expiresAt => ⟨alternative, expiresAt⟩

namespace AltSvcCache

def withCapacity (capacity : Nat) : AltSvcCache where
  entries := ∅
  capacity := max capacity 1

def purgeExpired (cache : AltSvcCache) (now : SystemTime) : AltSvcCache :=
  { cache with
    entries := (cache.entries.mapValues (List.filter (CachedAlternative.isLive now))).retain
      fun _ list => !list.isEmpty }

/-- When the first of some alternatives expires. -/
def firstExpiry (list : List CachedAlternative) : Option SystemTime :=
  (list.map CachedAlternative.expiresAt).min?

/-- The origin whose first alternative to expire expires soonest, in the order in which the table
yields its entries. -/
def soonest (scan : Order) (cache : AltSvcCache) : Option Origin :=
  (Select.minByKey Prod.fst ((scan.run cache.entries).filterMap fun entry =>
    (firstExpiry entry.2).map fun at_ => (at_, entry.1))).map Prod.snd

def makeRoomFor (scan : Order) (cache : AltSvcCache) (origin : Origin) (now : SystemTime) :
    AltSvcCache :=
  if cache.entries.entries.length < cache.capacity ∨ origin ∈ cache.entries then cache
  else
    let cache := cache.purgeExpired now
    if cache.entries.entries.length < cache.capacity then cache
    else
      match cache.soonest scan with
      | some key => { cache with entries := cache.entries.erase key }
      | none => cache

def record [PercentEncoding] (scan : Order) (cache : AltSvcCache) (origin : Origin) (value : Str)
    (now : SystemTime) : Except AltSvcError Unit × AltSvcCache :=
  if !origin.isSecure then (.error (.insecureOrigin (asciiSerialization origin)), cache)
  else
    let cached := remembered value now
    if cached.isEmpty then (.ok (), { cache with entries := cache.entries.erase origin })
    else
      let cache := cache.makeRoomFor scan origin now
      (.ok (), { cache with entries := cache.entries.insert origin cached })

def alternatives (cache : AltSvcCache) (origin : Origin) (now : SystemTime) :
    List CachedAlternative :=
  ((cache.entries.lookup origin).map (List.filter (CachedAlternative.isLive now))).getD []

/-- `H3_ALPN`. -/
def isH3 (entry : CachedAlternative) : Bool := entry.alternative.protocolId = "h3".toList

def h3Alternative (cache : AltSvcCache) (origin : Origin) (now : SystemTime) :
    Option CachedAlternative := do
  let list ← cache.entries.lookup origin
  list.find? fun entry => entry.isLive now && isH3 entry

end AltSvcCache

/-- A call that may change the cache, with the order in which the table yields its entries then. -/
inductive Op where
  | record (origin : Origin) (value : Str) (now : SystemTime) (scan : Order)
  | purge (now : SystemTime)

def Op.now : Op → SystemTime
  | .record _ _ now _ => now
  | .purge now => now

namespace AltSvcCache

def step [PercentEncoding] (cache : AltSvcCache) : Op → AltSvcCache
  | .record origin value now scan => (cache.record scan origin value now).2
  | .purge now => cache.purgeExpired now

def run [PercentEncoding] (cache : AltSvcCache) : List Op → AltSvcCache := List.foldl step cache

variable {scan : Order} {cache : AltSvcCache} {origin other victim : Origin} {value : Str}
  {now t : SystemTime}

/-! ## What is held -/

/-- What is held for an origin. -/
def held (cache : AltSvcCache) (origin : Origin) : List CachedAlternative :=
  (cache.entries.lookup origin).getD []

theorem alternatives_eq (cache : AltSvcCache) (origin : Origin) (t : SystemTime) :
    cache.alternatives origin t = (cache.held origin).filter (CachedAlternative.isLive t) := by
  rw [alternatives, held]
  cases cache.entries.lookup origin <;> rfl

theorem h3Alternative_eq (cache : AltSvcCache) (origin : Origin) (t : SystemTime) :
    cache.h3Alternative origin t = (cache.alternatives origin t).find? isH3 := by
  rw [alternatives_eq, List.find?_filter, h3Alternative, held]
  cases cache.entries.lookup origin <;> simp

theorem held_purgeExpired (cache : AltSvcCache) (now : SystemTime) (other : Origin) :
    (cache.purgeExpired now).held other =
      (cache.held other).filter (CachedAlternative.isLive now) := by
  rw [held, purgeExpired, held, Table.lookup_retain, Table.lookup_mapValues]
  cases cache.entries.lookup other with
  | none => rfl
  | some list =>
    cases hlist : list.filter (CachedAlternative.isLive now) with
    | nil => simp [Option.filter, hlist]
    | cons entry rest => simp [Option.filter, hlist]

theorem held_erase (entries : Table Origin (List CachedAlternative)) (capacity : Nat)
    (victim other : Origin) :
    held ⟨entries.erase victim, capacity⟩ other =
      if other = victim then [] else held ⟨entries, capacity⟩ other := by
  rw [held, held]
  split_ifs with h
  · rw [h, AList.lookup_erase]
    rfl
  · rw [AList.lookup_erase_ne h]

theorem held_insert (entries : Table Origin (List CachedAlternative)) (capacity : Nat)
    (origin other : Origin) (list : List CachedAlternative) :
    held ⟨entries.insert origin list, capacity⟩ other =
      if other = origin then list else held ⟨entries, capacity⟩ other := by
  rw [held, held]
  split_ifs with h
  · rw [h, AList.lookup_insert]
    rfl
  · rw [AList.lookup_insert_ne h]

theorem held_ne_nil_iff : other ∈ (cache.purgeExpired now).entries ↔
    (cache.purgeExpired now).held other ≠ [] := by
  rw [← AList.lookup_isSome, held]
  cases h : (cache.purgeExpired now).entries.lookup other with
  | none => simp
  | some list =>
    rw [purgeExpired, Table.lookup_retain, Option.filter_eq_some_iff] at h
    simpa using h.2

theorem filter_isLive_filter (h : now ≤ t) (list : List CachedAlternative) :
    (list.filter (CachedAlternative.isLive now)).filter (CachedAlternative.isLive t) =
      list.filter (CachedAlternative.isLive t) := by
  rw [List.filter_filter]
  refine List.filter_congr fun entry _ => ?_
  simp only [CachedAlternative.isLive, Bool.and_eq_left_iff_imp, decide_eq_true_eq]
  exact fun hlive => lt_of_le_of_lt h hlive

theorem alternatives_eq_nil (h : now ≤ t)
    (hnil : cache.alternatives origin now = []) : cache.alternatives origin t = [] := by
  rw [alternatives_eq] at hnil ⊢
  rw [← filter_isLive_filter h, hnil]
  rfl

/-- The answers of the cache come from a list. -/
def Answers (cache : AltSvcCache) (origin : Origin) (t : SystemTime)
    (list : List CachedAlternative) : Prop :=
  cache.alternatives origin t = list.filter (CachedAlternative.isLive t) ∧
    cache.h3Alternative origin t = (list.filter (CachedAlternative.isLive t)).find? isH3

theorem answers_iff {list : List CachedAlternative} : cache.Answers origin t list ↔
    cache.alternatives origin t = list.filter (CachedAlternative.isLive t) := by
  rw [Answers, h3Alternative_eq]
  exact ⟨And.left, fun h => ⟨h, by rw [h]⟩⟩

/-! ## Who makes room -/

/-- Whoever has to make room for an origin. -/
def displaced (scan : Order) (cache : AltSvcCache) (origin : Origin) (now : SystemTime) :
    Option Origin :=
  if cache.entries.entries.length < cache.capacity ∨ origin ∈ cache.entries then none
  else if (cache.purgeExpired now).entries.entries.length < cache.capacity then none
  else (cache.purgeExpired now).soonest scan

theorem alternatives_purgeExpired (h : now ≤ t) :
    (cache.purgeExpired now).alternatives other t = cache.alternatives other t := by
  rw [alternatives_eq, alternatives_eq, held_purgeExpired, filter_isLive_filter h]

theorem displaced_eq_some : cache.displaced scan origin now = some victim ↔
    origin ∉ cache.entries ∧ ¬ cache.entries.entries.length < cache.capacity ∧
      ¬ (cache.purgeExpired now).entries.entries.length < cache.capacity ∧
        (cache.purgeExpired now).soonest scan = some victim := by
  rw [displaced]
  split_ifs with hroom hpurged
  · simpa using fun horigin hfull => absurd hroom (not_or.mpr ⟨Nat.not_lt.mpr hfull, horigin⟩)
  · simp [hpurged]
  · simp only [hpurged, not_or.mp hroom, not_false_eq_true, true_and]

/-- Everything `make_room_for` can do: nothing, when there is room already; a purge, when that makes
room or leaves nobody; and a purge and a displacement. -/
theorem makeRoomFor_cases (scan : Order) (cache : AltSvcCache)
    (origin : Origin) (now : SystemTime) :
    (cache.displaced scan origin now = none ∧ cache.makeRoomFor scan origin now = cache ∧
      (cache.entries.entries.length < cache.capacity ∨ origin ∈ cache.entries)) ∨
    (cache.displaced scan origin now = none ∧
      cache.makeRoomFor scan origin now = cache.purgeExpired now ∧
      ((cache.purgeExpired now).entries.entries.length < cache.capacity ∨
        (cache.purgeExpired now).soonest scan = none)) ∨
    ∃ key, cache.displaced scan origin now = some key ∧
      cache.makeRoomFor scan origin now =
        ⟨(cache.purgeExpired now).entries.erase key, cache.capacity⟩ := by
  by_cases hroom : cache.entries.entries.length < cache.capacity ∨ origin ∈ cache.entries
  · exact Or.inl ⟨if_pos hroom, if_pos hroom, hroom⟩
  · by_cases hpurged : (cache.purgeExpired now).entries.entries.length < cache.capacity
    · refine Or.inr (Or.inl ⟨(if_neg hroom).trans (if_pos hpurged), ?_, Or.inl hpurged⟩)
      exact (if_neg hroom).trans (if_pos hpurged)
    · have hdisplaced : cache.displaced scan origin now = (cache.purgeExpired now).soonest scan :=
        (if_neg hroom).trans (if_neg hpurged)
      have hfull : ¬ (cache.purgeExpired now).entries.entries.length <
          (cache.purgeExpired now).capacity := hpurged
      rw [hdisplaced, makeRoomFor, if_neg hroom]
      dsimp only
      rw [if_neg hfull]
      cases (cache.purgeExpired now).soonest scan with
      | none => exact Or.inr (Or.inl ⟨rfl, rfl, Or.inr rfl⟩)
      | some key => exact Or.inr (Or.inr ⟨key, rfl, rfl⟩)

theorem alternatives_makeRoomFor (scan : Order)
    (cache : AltSvcCache) (origin other : Origin) (h : now ≤ t) :
    (cache.makeRoomFor scan origin now).alternatives other t =
      if cache.displaced scan origin now = some other then []
      else cache.alternatives other t := by
  obtain ⟨hnone, hsame, -⟩ | ⟨hnone, hpurge, -⟩ | ⟨key, hkey, hroom⟩ :=
    makeRoomFor_cases scan cache origin now
  · simp [hnone, hsame]
  · simp [hnone, hpurge, alternatives_purgeExpired h]
  · rw [hkey, hroom, alternatives_eq, held_erase]
    by_cases hother : other = key
    · simp [hother]
    · rw [if_neg hother, if_neg (by simpa using Ne.symm hother), ← alternatives_purgeExpired h,
        alternatives_eq]
      rfl

/-! ### The soonest to expire -/

/-- An origin holds an alternative that is live and that no live alternative outruns. -/
def HoldsSoonest (cache : AltSvcCache) (now : SystemTime) (origin : Origin) : Prop :=
  ∃ entry ∈ cache.alternatives origin now,
    ∀ other, ∀ later ∈ cache.alternatives other now, entry.expiresAt ≤ later.expiresAt

theorem firstExpiry_eq_some {list : List CachedAlternative} {first : SystemTime} :
    firstExpiry list = some first ↔
      (∃ entry ∈ list, entry.expiresAt = first) ∧ ∀ entry ∈ list, first ≤ entry.expiresAt := by
  rw [firstExpiry, List.min?_eq_some_iff, List.mem_map, List.forall_mem_map]

/-- The origins with their first expiries, in the order of a scan. -/
def expiries (scan : Order) (cache : AltSvcCache) : List (SystemTime × Origin) :=
  (scan.run cache.entries).filterMap fun entry =>
    (firstExpiry entry.2).map fun first => (first, entry.1)

theorem mem_expiries {first : SystemTime} :
    (first, origin) ∈ expiries scan cache ↔ firstExpiry (cache.held origin) = some first := by
  rw [expiries, List.mem_filterMap, held]
  constructor
  · intro ⟨⟨key, list⟩, hmem, hfirst⟩
    obtain ⟨least, hleast, hpair⟩ := Option.map_eq_some_iff.mp hfirst
    cases hpair
    rw [Table.Scan.mem_run.mp hmem]
    exact hleast
  · intro hfirst
    cases hlookup : cache.entries.lookup origin with
    | none =>
      rw [hlookup] at hfirst
      cases hfirst
    | some list =>
      rw [hlookup] at hfirst
      exact ⟨⟨origin, list⟩, Table.Scan.mem_run.mpr hlookup,
        Option.map_eq_some_iff.mpr ⟨first, hfirst, rfl⟩⟩

theorem soonest_eq (scan : Order) (cache : AltSvcCache) :
    cache.soonest scan = (Select.minByKey Prod.fst (expiries scan cache)).map Prod.snd := rfl

theorem held_purgeExpired_eq_alternatives (cache : AltSvcCache) (now : SystemTime)
    (other : Origin) : (cache.purgeExpired now).held other = cache.alternatives other now := by
  rw [held_purgeExpired, alternatives_eq]

theorem exists_firstExpiry {list : List CachedAlternative} {entry : CachedAlternative}
    (h : entry ∈ list) : ∃ first, firstExpiry list = some first ∧ first ≤ entry.expiresAt := by
  cases hfirst : firstExpiry list with
  | none =>
    rw [firstExpiry, List.min?_eq_none_iff, List.map_eq_nil_iff] at hfirst
    simp [hfirst] at h
  | some first => exact ⟨first, rfl, (firstExpiry_eq_some.mp hfirst).2 entry h⟩

theorem holdsSoonest_of_soonest (h : (cache.purgeExpired now).soonest scan = some victim) :
    cache.HoldsSoonest now victim := by
  obtain ⟨⟨first, key⟩, hmin, hkey⟩ := Option.map_eq_some_iff.mp h
  cases hkey
  obtain ⟨⟨entry, hentry, hexpires⟩, -⟩ :=
    firstExpiry_eq_some.mp (mem_expiries.mp (Select.mem_of_minByKey hmin))
  rw [held_purgeExpired_eq_alternatives] at hentry
  refine ⟨entry, hentry, fun other later hlater => ?_⟩
  rw [← held_purgeExpired_eq_alternatives] at hlater
  obtain ⟨least, hleast, hle⟩ := exists_firstExpiry hlater
  have hfirst : first ≤ least := Select.le_of_minByKey hmin (mem_expiries.mpr hleast)
  rw [hexpires]
  exact hfirst.trans hle

/-- Whoever holds the alternative that expires soonest is found, if the table yields it first. -/
theorem soonest_leading (h : cache.HoldsSoonest now victim) :
    (cache.purgeExpired now).soonest (.leading victim) = some victim := by
  obtain ⟨entry, hentry, hleast⟩ := h
  rw [← held_purgeExpired_eq_alternatives] at hentry
  obtain ⟨first, hfirst, hle⟩ := exists_firstExpiry hentry
  -- the victim stands in front, and nobody behind it expires sooner
  have hfront : ∃ rest, expiries (.leading victim) (cache.purgeExpired now) =
      (first, victim) :: rest := by
    rw [held] at hfirst
    cases hlookup : (cache.purgeExpired now).entries.lookup victim with
    | none =>
      rw [hlookup] at hfirst
      cases hfirst
    | some list =>
      rw [hlookup, Option.getD_some] at hfirst
      rw [expiries, Table.Scan.leading]
      simp only [hlookup]
      rw [List.filterMap_cons_some]
      · exact ⟨_, rfl⟩
      · exact Option.map_eq_some_iff.mpr ⟨first, hfirst, rfl⟩
  obtain ⟨rest, hrest⟩ := hfront
  rw [soonest_eq, hrest, Select.minByKey_cons_of_forall, Option.map_some]
  intro ⟨least, other⟩ hmem
  have hother := mem_expiries.mp (hrest ▸ List.mem_cons_of_mem _ hmem)
  obtain ⟨⟨later, hlater, hexpires⟩, -⟩ := firstExpiry_eq_some.mp hother
  rw [held_purgeExpired_eq_alternatives] at hlater
  have hlate := hleast other later hlater
  exact not_lt.mpr (hexpires ▸ hle.trans hlate)

theorem soonest_ne_none (h : 0 < (cache.purgeExpired now).entries.entries.length) :
    (cache.purgeExpired now).soonest scan ≠ none := by
  obtain ⟨⟨key, list⟩, hmem⟩ := List.exists_mem_of_length_pos h
  have hlookup : (cache.purgeExpired now).entries.lookup key = some list :=
    AList.mem_lookup_iff.mpr hmem
  have hheld : (cache.purgeExpired now).held key ≠ [] :=
    held_ne_nil_iff.mp (AList.lookup_isSome.mp (by rw [hlookup]; rfl))
  obtain ⟨entry, hentry⟩ := List.exists_mem_of_ne_nil _ hheld
  obtain ⟨first, hfirst, -⟩ := exists_firstExpiry hentry
  have hne : expiries scan (cache.purgeExpired now) ≠ [] :=
    List.ne_nil_of_mem (mem_expiries.mpr hfirst)
  obtain ⟨least, hleast⟩ := Select.exists_minByKey Prod.fst hne
  simp [soonest_eq, hleast]

/-! ## The number of origins -/

theorem length_purgeExpired_le (cache : AltSvcCache) (now : SystemTime) :
    (cache.purgeExpired now).entries.entries.length ≤ cache.entries.entries.length := by
  rw [purgeExpired, Table.retain, Table.mapValues]
  exact (List.length_filter_le _ _).trans_eq (List.length_map _)

/-- A cache within its capacity, which is not zero. -/
def Bounded (cache : AltSvcCache) : Prop :=
  0 < cache.capacity ∧ cache.entries.entries.length ≤ cache.capacity

theorem Bounded.length_insert_le (h : cache.Bounded) (scan : Order)
    (origin : Origin) (now : SystemTime) (list : List CachedAlternative) :
    ((cache.makeRoomFor scan origin now).entries.insert origin list).entries.length ≤
      cache.capacity := by
  have hlength := length_purgeExpired_le cache now
  have hpos := h.1
  have hcapacity := h.2
  obtain ⟨-, hsame, hroom | hheld⟩ | ⟨-, hsame, hroom⟩ | ⟨key, hkey, hsame⟩ :=
    makeRoomFor_cases scan cache origin now
  all_goals rw [hsame]
  · exact (Table.length_insert_le _ _ _).trans hroom
  · -- the origin is held: its entry is replaced
    obtain ⟨old, hold⟩ := Option.isSome_iff_exists.mp (AList.lookup_isSome.mpr hheld)
    have hperm := (Table.entries_perm hold).length_eq
    rw [List.length_cons] at hperm
    rw [AList.entries_insert, List.length_cons]
    exact hperm.symm.trans_le hcapacity
  · have hlt : (cache.purgeExpired now).entries.entries.length < cache.capacity := by
      rcases hroom with hroom | hnone
      · exact hroom
      · have hempty : ¬ 0 < (cache.purgeExpired now).entries.entries.length :=
          fun h => soonest_ne_none h hnone
        omega
    exact (Table.length_insert_le _ _ _).trans hlt
  · obtain ⟨entry, hentry, -⟩ := holdsSoonest_of_soonest (displaced_eq_some.mp hkey).2.2.2
    rw [← held_purgeExpired_eq_alternatives] at hentry
    obtain ⟨held, hheld⟩ := Option.isSome_iff_exists.mp
      (AList.lookup_isSome.mpr (held_ne_nil_iff.mpr (List.ne_nil_of_mem hentry)))
    have hperm := (Table.entries_perm hheld).length_eq
    rw [List.length_cons] at hperm
    refine (Table.length_insert_le _ _ _).trans ?_
    show ((cache.purgeExpired now).entries.erase key).entries.length + 1 ≤ cache.capacity
    omega

theorem bounded_withCapacity (capacity : Nat) : (withCapacity capacity).Bounded :=
  ⟨Nat.lt_of_lt_of_le Nat.one_pos (Nat.le_max_right _ _), Nat.zero_le _⟩

/-- Somebody is displaced from a cache that is full of live origins. -/
theorem Bounded.exists_displaced (h : cache.Bounded) (hnew : origin ∉ cache.entries)
    (hfull : ¬ (cache.purgeExpired now).entries.entries.length < cache.capacity) (scan : Order) :
    ∃ victim, cache.displaced scan origin now = some victim := by
  have hpos := h.1
  have hlength := length_purgeExpired_le cache now
  have hsome : (cache.purgeExpired now).soonest scan ≠ none := soonest_ne_none (by omega)
  obtain ⟨victim, hvictim⟩ := Option.ne_none_iff_exists'.mp hsome
  exact ⟨victim, displaced_eq_some.mpr ⟨hnew, by omega, hfull, hvictim⟩⟩

theorem ne_of_displaced (h : cache.displaced scan origin now = some victim) : victim ≠ origin := by
  obtain ⟨hnew, -, -, hsoonest⟩ := displaced_eq_some.mp h
  obtain ⟨entry, hentry, -⟩ := holdsSoonest_of_soonest hsoonest
  rintro rfl
  rw [alternatives_eq, held, AList.lookup_eq_none.mpr hnew] at hentry
  cases hentry

theorem capacity_makeRoomFor (scan : Order) (cache : AltSvcCache)
    (origin : Origin) (now : SystemTime) :
    (cache.makeRoomFor scan origin now).capacity = cache.capacity := by
  obtain ⟨-, hsame, -⟩ | ⟨-, hsame, -⟩ | ⟨key, -, hsame⟩ := makeRoomFor_cases scan cache origin now
  all_goals rw [hsame]
  rfl

variable [PercentEncoding]

theorem record_of_not_secure (h : origin.isSecure = false) :
    (cache.record scan origin value now).2 = cache := by
  simp [record, h]

theorem record_of_secure (h : origin.isSecure = true) :
    (cache.record scan origin value now).2 =
      if remembered value now = [] then ⟨cache.entries.erase origin, cache.capacity⟩
      else ⟨(cache.makeRoomFor scan origin now).entries.insert origin (remembered value now),
        cache.capacity⟩ := by
  simp only [record, h, Bool.not_true, Bool.false_eq_true, if_false, List.isEmpty_iff]
  split_ifs
  · rfl
  · exact congrArg (AltSvcCache.mk _) (capacity_makeRoomFor scan cache origin now)

theorem Bounded.record (h : cache.Bounded) (scan : Order)
    (origin : Origin) (value : Str) (now : SystemTime) :
    (cache.record scan origin value now).2.Bounded := by
  cases hsecure : origin.isSecure with
  | false =>
    rw [record_of_not_secure hsecure]
    exact h
  | true =>
    rw [record_of_secure hsecure]
    split_ifs
    · exact ⟨h.1, (List.kerase_sublist _ _).length_le.trans h.2⟩
    · exact ⟨h.1, h.length_insert_le scan origin now _⟩

theorem Bounded.step (h : cache.Bounded) (op : Op) : (cache.step op).Bounded := by
  cases op with
  | record origin value now scan => exact h.record scan origin value now
  | purge now => exact ⟨h.1, (length_purgeExpired_le cache now).trans h.2⟩

theorem Bounded.run (h : cache.Bounded) (ops : List Op) : (cache.run ops).Bounded := by
  induction ops generalizing cache with
  | nil => exact h
  | cons op ops ih => exact ih (h.step op)

theorem capacity_step (cache : AltSvcCache) (op : Op) :
    (cache.step op).capacity = cache.capacity := by
  cases op with
  | purge now => rfl
  | record origin value now scan =>
    cases hsecure : origin.isSecure with
    | false => rw [step, record_of_not_secure hsecure]
    | true =>
      rw [step, record_of_secure hsecure]
      split_ifs <;> rfl

theorem capacity_run (cache : AltSvcCache) (ops : List Op) :
    (cache.run ops).capacity = cache.capacity := by
  induction ops generalizing cache with
  | nil => rfl
  | cons op ops ih => exact (ih _).trans (capacity_step cache op)

/-! ## What the cache answers -/

/-- **What recording a field changes**, as it is seen from outside. -/
theorem alternatives_record (hsecure : origin.isSecure = true) (h : now ≤ t) :
    (cache.record scan origin value now).2.alternatives other t =
      if other = origin then (remembered value now).filter (CachedAlternative.isLive t)
      else if remembered value now ≠ [] ∧ cache.displaced scan origin now = some other then []
      else cache.alternatives other t := by
  rw [record_of_secure hsecure]
  by_cases hfield : remembered value now = []
  · rw [if_pos hfield, alternatives_eq, held_erase, alternatives_eq]
    by_cases hother : other = origin
    · simp [hother, hfield]
    · rw [if_neg hother, if_neg hother, if_neg fun hnot => hnot.1 hfield]
  · rw [if_neg hfield, alternatives_eq, held_insert]
    by_cases hother : other = origin
    · rw [if_pos hother, if_pos hother]
    · have hroom := alternatives_makeRoomFor scan cache origin other h
      rw [alternatives_eq] at hroom
      rw [if_neg hother, if_neg hother]
      simp only [ne_eq, hfield, not_false_eq_true, true_and]
      exact hroom

end AltSvcCache

/-- The field that a call records, and for whom. -/
def Op.field [PercentEncoding] : Op → Option (Origin × List CachedAlternative)
  | .record origin value now _ =>
    if origin.isSecure then some (origin, remembered value now) else none
  | .purge _ => none

namespace AltSvcCache

variable [PercentEncoding] {cache : AltSvcCache} {origin : Origin} {t : SystemTime} {op : Op}
  {ops : List Op}

/-- A call makes an origin lose what is live, though it records nothing for it. -/
def Evicts (cache : AltSvcCache) (op : Op) (origin : Origin) : Prop :=
  (∀ list, op.field ≠ some (origin, list)) ∧ cache.alternatives origin op.now ≠ [] ∧
    (cache.step op).alternatives origin op.now = []

/-- The calls of a run, each with the cache it starts from. -/
def trace (cache : AltSvcCache) : List Op → List (AltSvcCache × Op)
  | [] => []
  | op :: ops => (cache, op) :: trace (cache.step op) ops

/-- What a call leaves of an origin: the field it records, or nothing if it evicts the origin. -/
def Writes (event : AltSvcCache × Op) (origin : Origin) (left : Option (List CachedAlternative)) :
    Prop :=
  (∃ list, event.2.field = some (origin, list) ∧ left = some list) ∨
    (Evicts event.1 event.2 origin ∧ left = none)

theorem trace_concat (cache : AltSvcCache) (ops : List Op) (op : Op) :
    trace cache (ops ++ [op]) = trace cache ops ++ [(cache.run ops, op)] := by
  induction ops generalizing cache with
  | nil => rfl
  | cons first ops ih =>
    rw [List.cons_append, trace, ih, trace, List.cons_append]
    rfl

theorem run_concat (cache : AltSvcCache) (ops : List Op) (op : Op) :
    cache.run (ops ++ [op]) = (cache.run ops).step op := by
  simp [run]

/-- A call that records nothing for an origin and does not evict it changes none of its answers. -/
theorem alternatives_step (hfield : ∀ list, op.field ≠ some (origin, list))
    (hkept : ¬ Evicts cache op origin) (h : op.now ≤ t) :
    (cache.step op).alternatives origin t = cache.alternatives origin t := by
  cases op with
  | purge now => exact alternatives_purgeExpired h
  | record recorded value now scan =>
    cases hsecure : recorded.isSecure with
    | false => rw [step, record_of_not_secure hsecure]
    | true =>
      have hother : origin ≠ recorded := by
        intro heq
        exact hfield (remembered value now) (by simp [Op.field, hsecure, heq])
      have hnow : now ≤ t := h
      rw [step, alternatives_record hsecure hnow, if_neg hother, if_neg]
      intro ⟨hne, hdisplaced⟩
      obtain ⟨entry, hentry, -⟩ := holdsSoonest_of_soonest (displaced_eq_some.mp hdisplaced).2.2.2
      refine hkept ⟨hfield, List.ne_nil_of_mem hentry, ?_⟩
      show (cache.record scan recorded value now).2.alternatives origin now = []
      rw [alternatives_record hsecure (le_refl now), if_neg hother, if_pos ⟨hne, hdisplaced⟩]

theorem alternatives_step_of_field {list : List CachedAlternative}
    (hfield : op.field = some (origin, list)) (h : op.now ≤ t) :
    (cache.step op).alternatives origin t = list.filter (CachedAlternative.isLive t) := by
  cases op with
  | purge now => cases hfield
  | record recorded value now scan =>
    rw [Op.field] at hfield
    split_ifs at hfield with hsecure
    cases hfield
    have hnow : now ≤ t := h
    rw [step, alternatives_record hsecure hnow, if_pos rfl]

theorem writes_some {list : List CachedAlternative} :
    Writes (cache, op) origin (some list) ↔ op.field = some (origin, list) := by
  simp [Writes]

theorem not_writes : (∀ left, ¬ Writes (cache, op) origin left) ↔
    (∀ list, op.field ≠ some (origin, list)) ∧ ¬ Evicts cache op origin := by
  constructor
  · intro h
    exact ⟨fun list hfield => h _ (Or.inl ⟨list, hfield, rfl⟩),
      fun hevicts => h _ (Or.inr ⟨hevicts, rfl⟩)⟩
  · rintro ⟨hfield, hkept⟩ left (⟨list, hlist, -⟩ | ⟨hevicts, -⟩)
    · exact hfield list hlist
    · exact hkept hevicts

/-- **Each origin answers from the last field recorded for it**, unless it has been evicted
since. -/
theorem answers_run (capacity : Nat) (h : ∀ op ∈ ops, op.now ≤ t) :
    (∀ list, History.Leaves Writes (trace (withCapacity capacity) ops) origin list →
      ((withCapacity capacity).run ops).Answers origin t list) ∧
    ((∀ list, ¬ History.Leaves Writes (trace (withCapacity capacity) ops) origin list) →
      ((withCapacity capacity).run ops).Answers origin t []) := by
  simp only [answers_iff]
  induction ops using List.reverseRecOn with
  | nil =>
    refine ⟨fun list hleaves => absurd hleaves History.not_leaves_nil, fun _ => ?_⟩
    rfl
  | append_singleton ops op ih =>
    have hbefore := ih fun other hmem => h other (List.mem_append_left _ hmem)
    have hnow : op.now ≤ t := h op (by simp)
    simp only [trace_concat, run_concat, History.leaves_concat, writes_some, not_writes]
    by_cases hfield : ∃ list, op.field = some (origin, list)
    · obtain ⟨field, hfield⟩ := hfield
      constructor
      · intro list hleaves
        rcases hleaves with hlist | hnone
        · exact alternatives_step_of_field hlist hnow
        · exact absurd hfield (hnone.1.1 field)
      · intro hnone
        exact absurd (Or.inl hfield) (hnone field)
    · push Not at hfield
      by_cases hevicts : Evicts ((withCapacity capacity).run ops) op origin
      · constructor
        · intro list hleaves
          rcases hleaves with hlist | hnone
          · exact absurd hlist (hfield list)
          · exact absurd hevicts hnone.1.2
        · intro _
          exact alternatives_eq_nil hnow hevicts.2.2
      · rw [alternatives_step hfield hevicts hnow]
        simpa [hfield, hevicts] using hbefore

/-! ## Who is spared -/

/-- Nobody has to make room: the origin is held already, a purge makes room, or nothing of the field
is live. -/
def NeedsNoRoom (cache : AltSvcCache) (origin : Origin) (value : Str) (now : SystemTime) : Prop :=
  origin ∈ cache.entries ∨ (cache.purgeExpired now).entries.entries.length < cache.capacity ∨
    ∀ entry ∈ remembered value now, entry.isLive now = false

/-- The last live alternative of one origin expires no later than that of another. -/
def NoLater (cache : AltSvcCache) (now : SystemTime) (victim other : Origin) : Prop :=
  ∀ entry ∈ cache.alternatives victim now, ∃ later ∈ cache.alternatives other now,
    entry.expiresAt ≤ later.expiresAt

/-- Recording a field takes what is live from no other origin, if nobody has to make room, and else
from one whose last live alternative expires no later than that of anyone kept. -/
def Spares (cache : AltSvcCache) (origin : Origin) (value : Str) (now : SystemTime)
    (scan : Order) : Prop :=
  let after := (cache.record scan origin value now).2
  (cache.NeedsNoRoom origin value now → ∀ other, other ≠ origin →
    cache.alternatives other now ⊆ after.alternatives other now) ∧
  (¬ cache.NeedsNoRoom origin value now → ∃ victim, victim ≠ origin ∧
    cache.alternatives victim now ≠ [] ∧ after.alternatives victim now = [] ∧
    ∀ other, other ≠ origin → other ≠ victim →
      cache.alternatives other now ⊆ after.alternatives other now ∧
        (cache.alternatives other now ≠ [] → cache.NoLater now victim other))

/-- When somebody has to make room, there is something live to make room for, and whoever holds the
alternative that expires soonest also has its last one expire no later than anyone else's. -/
def Fair (cache : AltSvcCache) (origin : Origin) (value : Str) (now : SystemTime) : Prop :=
  origin ∉ cache.entries → ¬ (cache.purgeExpired now).entries.entries.length < cache.capacity →
    remembered value now ≠ [] →
      (∃ entry ∈ remembered value now, entry.isLive now = true) ∧
        ∀ victim, cache.HoldsSoonest now victim →
          ∀ other, cache.alternatives other now ≠ [] → cache.NoLater now victim other

variable {value : Str} {now : SystemTime} {scan : Order} {victim : Origin}

theorem alternatives_record_of_ne (hsecure : origin.isSecure = true) {other : Origin}
    (hother : other ≠ origin)
    (hkept : ¬ (remembered value now ≠ [] ∧ cache.displaced scan origin now = some other)) :
    (cache.record scan origin value now).2.alternatives other now =
      cache.alternatives other now := by
  rw [alternatives_record hsecure (le_refl now), if_neg hother, if_neg hkept]

theorem alternatives_record_of_displaced (hsecure : origin.isSecure = true)
    (hfield : remembered value now ≠ []) (h : cache.displaced scan origin now = some victim) :
    cache.alternatives victim now ≠ [] ∧
      (cache.record scan origin value now).2.alternatives victim now = [] := by
  obtain ⟨entry, hentry, -⟩ := holdsSoonest_of_soonest (displaced_eq_some.mp h).2.2.2
  refine ⟨List.ne_nil_of_mem hentry, ?_⟩
  rw [alternatives_record hsecure (le_refl now), if_neg (ne_of_displaced h), if_pos ⟨hfield, h⟩]

/-- Whoever loses something can only be the one who is displaced. -/
theorem eq_of_lost (hsecure : origin.isSecure = true) {lost : Origin} (hlost : lost ≠ origin)
    (hvictim : cache.displaced scan origin now = some victim)
    (hheld : cache.alternatives lost now ≠ [])
    (hgone : (cache.record scan origin value now).2.alternatives lost now = []) :
    lost = victim := by
  by_contra hne
  rw [alternatives_record_of_ne hsecure hlost] at hgone
  · exact hheld hgone
  · intro ⟨_, hdisplaced⟩
    exact hne (Option.some.inj (hdisplaced.symm.trans hvictim))

theorem Fair.spares (hfair : cache.Fair origin value now) (h : cache.Bounded)
    (hsecure : origin.isSecure = true) (scan : Order) :
    cache.Spares origin value now scan := by
  constructor
  · intro hneeds other hother
    rw [alternatives_record_of_ne hsecure hother]
    · exact List.Subset.refl _
    · intro ⟨hfield, hdisplaced⟩
      obtain ⟨hnew, -, hfull, -⟩ := displaced_eq_some.mp hdisplaced
      obtain ⟨entry, hentry, hlive⟩ := (hfair hnew hfull hfield).1
      have hdead := (hneeds.resolve_left hnew).resolve_left hfull entry hentry
      rw [hlive] at hdead
      cases hdead
  · intro hneeds
    obtain ⟨hnew, hneeds⟩ := not_or.mp hneeds
    obtain ⟨hfull, hlive⟩ := not_or.mp hneeds
    have hfield : remembered value now ≠ [] := by
      intro hnil
      simp [hnil] at hlive
    obtain ⟨victim, hvictim⟩ := h.exists_displaced hnew hfull scan
    obtain ⟨hheld, hgone⟩ := alternatives_record_of_displaced hsecure hfield hvictim
    refine ⟨victim, ne_of_displaced hvictim, hheld, hgone, fun other hother hne => ⟨?_, ?_⟩⟩
    · rw [alternatives_record_of_ne hsecure hother]
      · exact List.Subset.refl _
      · intro ⟨_, hdisplaced⟩
        exact hne (Option.some.inj (hdisplaced.symm.trans hvictim))
    · exact (hfair hnew hfull hfield).2 victim
        (holdsSoonest_of_soonest (displaced_eq_some.mp hvictim).2.2.2) other

/-- **Who is spared.** In every order of the table recording a field spares everyone it should if,
and only if, the record is fair. -/
theorem Bounded.spares_iff (h : cache.Bounded) (hsecure : origin.isSecure = true) :
    (∀ scan, cache.Spares origin value now scan) ↔ cache.Fair origin value now := by
  constructor
  · intro hspares hnew hfull hfield
    have hlive : ∃ entry ∈ remembered value now, entry.isLive now = true := by
      by_contra hdead
      push Not at hdead
      have hneeds : cache.NeedsNoRoom origin value now :=
        Or.inr (Or.inr fun entry hentry => Bool.eq_false_iff.mpr (hdead entry hentry))
      obtain ⟨victim, hvictim⟩ := h.exists_displaced hnew hfull .listed
      obtain ⟨hheld, hgone⟩ := alternatives_record_of_displaced hsecure hfield hvictim
      have hkept := (hspares .listed).1 hneeds victim (ne_of_displaced hvictim)
      rw [hgone] at hkept
      exact hheld (List.subset_nil.mp hkept)
    refine ⟨hlive, fun victim hsoonest other hother => ?_⟩
    have hlength := length_purgeExpired_le cache now
    have hvictim : cache.displaced (.leading victim) origin now = some victim :=
      displaced_eq_some.mpr ⟨hnew, by omega, hfull, soonest_leading hsoonest⟩
    have hneeds : ¬ cache.NeedsNoRoom origin value now := by
      obtain ⟨entry, hentry, hlive⟩ := hlive
      refine not_or.mpr ⟨hnew, not_or.mpr ⟨hfull, fun hdead => ?_⟩⟩
      rw [hdead entry hentry] at hlive
      cases hlive
    obtain ⟨lost, hlost, hheld, hgone, hkept⟩ := (hspares (.leading victim)).2 hneeds
    have hsame : lost = victim := eq_of_lost hsecure hlost hvictim hheld hgone
    subst hsame
    by_cases heq : other = lost
    · subst heq
      exact fun entry hentry => ⟨entry, hentry, le_refl _⟩
    · refine (hkept other ?_ heq).2 hother
      rintro rfl
      rw [alternatives_eq, held, AList.lookup_eq_none.mpr hnew] at hother
      exact hother rfl
  · intro hfair scan
    exact hfair.spares h hsecure scan

/-- **How the cache forgets.** After any run of calls there are no more origins than the capacity; a
field from a plaintext origin changes nothing; from any later instant on each origin answers from
the last field recorded for it, unless it was evicted; and whatever field is recorded next, the
origins that should be spared are, in every order of the table, if and only if the record is
fair. -/
theorem run_forgets (capacity : Nat) (ops : List Op) :
    let cache := (withCapacity capacity).run ops
    cache.entries.entries.length ≤ max capacity 1 ∧
    (∀ scan origin value now, origin.isSecure = false →
      (cache.record scan origin value now).2 = cache) ∧
    (∀ origin t, (∀ op ∈ ops, op.now ≤ t) →
      (∀ list, History.Leaves Writes (trace (withCapacity capacity) ops) origin list →
        cache.Answers origin t list) ∧
      ((∀ list, ¬ History.Leaves Writes (trace (withCapacity capacity) ops) origin list) →
        cache.Answers origin t [])) ∧
    ∀ origin value now, origin.isSecure = true →
      ((∀ scan, cache.Spares origin value now scan) ↔ cache.Fair origin value now) := by
  have hbounded := (bounded_withCapacity capacity).run ops
  refine ⟨?_, ?_, ?_, ?_⟩
  · have hle := hbounded.2
    rw [capacity_run] at hle
    exact hle
  · intro scan origin value now hplain
    exact record_of_not_secure hplain
  · intro origin t hlate
    exact answers_run capacity hlate
  · intro origin value now hsecure
    exact hbounded.spares_iff hsecure

end AltSvcCache

namespace AltSvcCache

/-- A decoder that has nothing to decode. -/
local instance : PercentEncoding := ⟨id⟩

/-- A secure origin. -/
def site (host : String) : Origin := ⟨"https".toList, host.toList, 443⟩

/-- A field of one alternative with an age in seconds. -/
def h3For (seconds : String) : Str := ("h3=\":443\"; ma=" ++ seconds).toList

/-- Two sites that are remembered, one with an alternative for a second and one for a thousand, the
other for a hundred seconds. -/
def twoSites : AltSvcCache :=
  (withCapacity 2).run
    [.record (site "a") "h3=\":443\"; ma=1, h2=\":443\"; ma=1000".toList 0 .listed,
      .record (site "b") (h3For "100") 0 .listed]

/-- A third site takes the place of the first, whose last alternative would have outlived the
other's; and a field that is dead on arrival does the same. -/
theorem twoSites_forgets :
    ¬ twoSites.Spares (site "c") (h3For "60") 0 .listed ∧
      ¬ twoSites.Spares (site "c") (h3For "0") 0 .listed := by
  constructor
  · intro hspares
    have hvictim : twoSites.displaced .listed (site "c") 0 = some (site "a") := by decide +kernel
    have hneeds : ¬ twoSites.NeedsNoRoom (site "c") (h3For "60") 0 := by
      obtain ⟨hnew, -, hfull, -⟩ := displaced_eq_some.mp hvictim
      refine not_or.mpr ⟨hnew, not_or.mpr ⟨hfull, ?_⟩⟩
      decide +kernel
    obtain ⟨lost, hlost, hheld, hgone, hkept⟩ := hspares.2 hneeds
    have hsame := eq_of_lost (by decide) hlost hvictim hheld hgone
    subst hsame
    have hlater := (hkept (site "b") (by decide) (by decide)).2 (by decide +kernel)
    have hnot : ¬ twoSites.NoLater 0 (site "a") (site "b") := by
      rw [NoLater]
      decide +kernel
    exact hnot hlater
  · intro hspares
    have hdead : ∀ entry ∈ remembered (h3For "0") 0, entry.isLive 0 = false := by decide +kernel
    have hkept := hspares.1 (Or.inr (Or.inr hdead)) (site "a") (by decide)
    have hlost : ¬ twoSites.alternatives (site "a") 0 ⊆
        (twoSites.record .listed (site "c") (h3For "0") 0).2.alternatives (site "a") 0 := by
      decide +kernel
    exact hlost hkept

/-- One site that is remembered, where there is room for one. -/
def oneSite : AltSvcCache := (withCapacity 1).run [.record (site "a") (h3For "10") 0 .listed]

theorem eq_site_of_oneSite {other : Origin} (h : oneSite.alternatives other 0 ≠ []) :
    other = site "a" := by
  by_contra hne
  refine h ((alternatives_record (by decide) (le_refl 0)).trans ?_)
  rw [if_neg hne]
  split_ifs <;> rfl

/-- The second of the two sites answers from its field; and where there is room for one site, it is
fair that another displaces it. -/
theorem twoSites_answers :
    (twoSites.entries.entries.length ≤ max 2 1 ∧
      twoSites.Answers (site "b") 5 (remembered (h3For "100") 0)) ∧
    oneSite.displaced .listed (site "c") 0 = some (site "a") ∧
      ∀ scan, oneSite.Spares (site "c") (h3For "60") 0 scan := by
  constructor
  · have h := run_forgets 2
      [.record (site "a") "h3=\":443\"; ma=1, h2=\":443\"; ma=1000".toList 0 .listed,
        .record (site "b") (h3For "100") 0 .listed]
    refine ⟨h.1, (h.2.2.1 (site "b") 5 (by simp [Op.now])).1 _ ?_⟩
    refine ⟨[_], (_, _), [], rfl, Or.inl ⟨_, ?_, rfl⟩, by simp⟩
    rfl
  · have h := run_forgets 1 [.record (site "a") (h3For "10") 0 .listed]
    refine ⟨by decide +kernel, (h.2.2.2 (site "c") (h3For "60") 0 (by decide)).mpr ?_⟩
    refine fun _ _ _ => ⟨by decide +kernel, fun victim ⟨entry, hentry, _⟩ other hother => ?_⟩
    rw [eq_site_of_oneSite (List.ne_nil_of_mem hentry), eq_site_of_oneSite hother]
    exact fun entry hentry => ⟨entry, hentry, le_refl _⟩

end AltSvcCache

end Chromulate.H3
