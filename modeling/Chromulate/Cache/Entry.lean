import Chromulate.Cache.Date
import Chromulate.Cache.Directive
import Chromulate.Core.Uri
import Mathlib.Data.List.Sort
import Mathlib.Data.Char
import Mathlib.Data.List.Lex

/-!
# Stored responses

`chromulate-cache/src/entry.rs`: the key a response is stored under, the request values it was
selected by, the entry itself, and the two ways its fields are rewritten. The rewrites are
described name by name, which is all the rest of the development uses of them:

* **`getAll_stripHopByHop`** — storing drops the connection's own fields and those it names;
* **`getAll_refreshed`** — a `304` replaces every field it has, but for a few.
-/

namespace Chromulate.Cache

open HeaderMap Text

/-! ## Keys and selectors -/

/-- The values of `mem::size_of` that the store's estimates start from. -/
structure Layout where
  key : Nat
  entry : Nat

/-- `CacheKey`: the method and the target without its fragment. -/
structure CacheKey where
  method : Method
  target : Str
  deriving DecidableEq

def CacheKey.new (method : Method) (url : Url) : CacheKey := ⟨method, url.upToQuery⟩

def CacheKey.size (layout : Layout) (key : CacheKey) : Nat := layout.key + byteLen key.target

/-- `Selector`: the request values a response was selected by. -/
structure Selector where
  fields : List (HeaderName × List HeaderValue)
  deriving DecidableEq

namespace Selector

def any : Selector := ⟨[]⟩

def of (names : List HeaderName) (request : HeaderMap) : Selector :=
  ⟨names.map fun name => (name, getAll request name)⟩

/-- The loop of `matches`: the two lists of values, side by side. -/
def sameValues : List HeaderValue → List HeaderValue → Bool
  | [], [] => true
  | a :: offered, b :: expected => a = b && sameValues offered expected
  | _, _ => false

/-- `Selector::matches`. -/
def matchesRequest (selector : Selector) (request : HeaderMap) : Bool :=
  selector.fields.all fun field => sameValues (getAll request field.1) field.2

def size (selector : Selector) : Nat :=
  (selector.fields.map fun field =>
    byteLen field.1.text + (field.2.map fun value => value.bytes.length).sum).sum

theorem sameValues_iff {a b : List HeaderValue} : sameValues a b ↔ a = b := by
  induction a generalizing b with
  | nil => cases b <;> simp [sameValues]
  | cons x a ih => cases b <;> simp [sameValues, ih]

/-- **A selector matches the requests that present the recorded values**, absence included. -/
theorem matchesRequest_of_iff {names : List HeaderName} {recorded request : HeaderMap} :
    (of names recorded).matchesRequest request ↔
      ∀ name ∈ names, getAll request name = getAll recorded name := by
  simp [matchesRequest, of, sameValues_iff]

end Selector

/-! ## Entries -/

structure CacheEntry where
  status : StatusCode
  version : Version
  headers : HeaderMap
  body : Bytes
  selector : Selector
  requestedAt : SystemTime
  receivedAt : SystemTime
  deriving DecidableEq

def headerDate (headers : HeaderMap) (name : HeaderName) : Option SystemTime := do
  let value ← get headers name
  let text ← value.toStr
  Date.parseHttpDate text

def isHopByHop (name : HeaderName) : Bool :=
  (["connection", "keep-alive", "proxy-authenticate", "proxy-authorization", "proxy-connection",
    "te", "trailer", "transfer-encoding", "upgrade"].map String.toList).contains name.text

/-- One name of the loop in `refreshed`: a `304` describes its own framing, not the body's. -/
def mergeField (notModified headers : HeaderMap) (name : HeaderName) : HeaderMap :=
  if isHopByHop name || name = .contentLength then headers
  else
    match getAll notModified name with
    | [] => headers
    | first :: values =>
      values.foldl (fun headers extra => append headers name extra) (insert headers name first)

namespace CacheEntry

def size (layout : Layout) (entry : CacheEntry) : Nat :=
  layout.entry + entry.body.length +
    (entry.headers.map fun field => byteLen field.1.text + field.2.bytes.length).sum +
    entry.selector.size

def date (entry : CacheEntry) : Option SystemTime := headerDate entry.headers .date

def lastModified (entry : CacheEntry) : Option SystemTime := headerDate entry.headers .lastModified

def effectiveDate (entry : CacheEntry) : SystemTime := entry.date.getD entry.receivedAt

def ageField (entry : CacheEntry) : Option Duration := do
  let value ← get entry.headers .age
  let text ← value.toStr
  let seconds ← deltaSeconds text
  some (Duration.fromSecs seconds)

/-- `CacheEntry::expires_field`: present but invalid is the epoch. -/
def expiresField (entry : CacheEntry) : Option SystemTime := do
  let value ← get entry.headers .expires
  some ((value.toStr.bind Date.parseHttpDate).getD 0)

def refreshed (entry : CacheEntry) (notModified : HeaderMap)
    (requestedAt receivedAt : SystemTime) : CacheEntry :=
  { entry with
    headers := (keys notModified).foldl (mergeField notModified) entry.headers
    requestedAt := requestedAt
    receivedAt := receivedAt }

end CacheEntry

/-- The names a message's `Connection` lines list. -/
def connectionNames (headers : HeaderMap) : List HeaderName :=
  (((getAll headers .connection).filterMap HeaderValue.toStr).flatMap fun text =>
    text.splitOn ',').filterMap fun token => HeaderName.fromBytes (trim token)

/-- The names that do not outlive the connection. -/
def hopNames (headers : HeaderMap) : List HeaderName :=
  (keys headers).filter isHopByHop ++ connectionNames headers

def stripHopByHop (headers : HeaderMap) : HeaderMap := (hopNames headers).foldl remove headers

/-! ## The rewrites, name by name -/

theorem getAll_foldl_remove (names : List HeaderName) (headers : HeaderMap) (name : HeaderName) :
    getAll (names.foldl remove headers) name =
      if name ∈ names then [] else getAll headers name := by
  induction names generalizing headers with
  | nil => simp
  | cons n names ih =>
    rw [List.foldl_cons, ih, getAll_remove]
    by_cases hn : name = n
    · simp [hn]
    · simp [hn]

/-- **Storing keeps a field whole or drops it.** -/
theorem getAll_stripHopByHop (headers : HeaderMap) (name : HeaderName) :
    getAll (stripHopByHop headers) name =
      if name ∈ hopNames headers then [] else getAll headers name :=
  getAll_foldl_remove _ _ _

theorem getAll_stripHopByHop_cases (headers : HeaderMap) (name : HeaderName) :
    getAll (stripHopByHop headers) name = [] ∨
      getAll (stripHopByHop headers) name = getAll headers name := by
  rw [getAll_stripHopByHop]
  split_ifs
  · exact Or.inl rfl
  · exact Or.inr rfl

/-- The fields a `304` hands over: those it has, but for its framing. -/
def replaces (notModified : HeaderMap) (name : HeaderName) : Bool :=
  containsKey notModified name && !(isHopByHop name || name = .contentLength)

theorem getAll_foldl_append (values : List HeaderValue) (headers : HeaderMap)
    (name other : HeaderName) :
    getAll (values.foldl (fun headers extra => append headers name extra) headers) other =
      getAll headers other ++ if other = name then values else [] := by
  induction values generalizing headers with
  | nil => simp
  | cons value values ih =>
    rw [List.foldl_cons, ih, getAll_append]
    by_cases h : other = name <;> simp [h]

theorem getAll_mergeField (notModified headers : HeaderMap) (name other : HeaderName) :
    getAll (mergeField notModified headers name) other =
      if other = name ∧ replaces notModified name then getAll notModified name
      else getAll headers other := by
  unfold mergeField
  split
  · rename_i hskip
    simp [replaces, hskip]
  · rename_i hskip
    split
    · rename_i hnone
      simp [replaces, containsKey, hnone]
    · rename_i first values hsome
      have hrep : replaces notModified name = true := by
        simp only [replaces, containsKey, hsome, hskip]
        rfl
      rw [getAll_foldl_append, getAll_insert]
      by_cases h : other = name <;> simp [h, hrep, hsome]

theorem getAll_foldl_mergeField (names : List HeaderName) (notModified headers : HeaderMap)
    (name : HeaderName) :
    getAll (names.foldl (mergeField notModified) headers) name =
      if name ∈ names ∧ replaces notModified name then getAll notModified name
      else getAll headers name := by
  induction names generalizing headers with
  | nil => simp
  | cons n names ih =>
    rw [List.foldl_cons, ih, getAll_mergeField]
    by_cases hn : name = n
    · subst hn
      by_cases hr : replaces notModified name <;> simp [hr]
    · simp [hn]

/-- **A `304` replaces the fields it hands over and leaves every other.** -/
theorem CacheEntry.getAll_refreshed (entry : CacheEntry) (notModified : HeaderMap)
    (requestedAt receivedAt : SystemTime) (name : HeaderName) :
    getAll (entry.refreshed notModified requestedAt receivedAt).headers name =
      if replaces notModified name then getAll notModified name
      else getAll entry.headers name := by
  rw [CacheEntry.refreshed, getAll_foldl_mergeField]
  by_cases hr : replaces notModified name
  · have hmem : name ∈ keys notModified := by
      by_contra h
      simp [replaces, containsKey, getAll_eq_nil_of_notMem_keys h] at hr
    simp [hr, hmem]
  · simp [hr]

theorem replaces_cacheControl (notModified : HeaderMap) :
    replaces notModified .cacheControl = containsKey notModified .cacheControl := by
  rw [replaces, show (isHopByHop .cacheControl || decide (HeaderName.cacheControl = .contentLength))
    = false from by decide]
  simp

theorem replaces_vary (notModified : HeaderMap) :
    replaces notModified .vary = containsKey notModified .vary := by
  rw [replaces, show (isHopByHop .vary || decide (HeaderName.vary = .contentLength)) = false from
    by decide]
  simp

/-! ## Vary -/

/-- One line of `vary_names`, cut at its commas: `*` or a token that is no name spoils it. -/
def readNames : List Str → Option (List HeaderName)
  | [] => some []
  | piece :: rest =>
    let token := trim piece
    if token.isEmpty then readNames rest
    else if token = ['*'] then none
    else do
      let name ← HeaderName.fromBytes token
      let names ← readNames rest
      some (name :: names)

/-- The lines of `vary_names`, one after the other. -/
def readLines : List HeaderValue → Option (List HeaderName)
  | [] => some []
  | value :: rest => do
      let text ← value.toStr
      let names ← readNames (text.splitOn ',')
      let more ← readLines rest
      some (names ++ more)

/-- `vary_names`: sorted, each name once. -/
def varyNames (headers : HeaderMap) : Option (List HeaderName) :=
  (readLines (getAll headers .vary)).map fun names =>
    (names.insertionSort fun a b => a.text ≤ b.text).dedup

variable {headers : HeaderMap} {names : List HeaderName}

theorem varyNames_congr {other : HeaderMap} (h : getAll headers .vary = getAll other .vary) :
    varyNames headers = varyNames other := by
  rw [varyNames, varyNames, h]

theorem varyNames_of_nil (h : getAll headers .vary = []) : varyNames headers = some [] := by
  rw [varyNames, h]
  rfl

/-- A `Vary` line of the message lists `name`. -/
def SelectsOn (headers : HeaderMap) (name : HeaderName) : Prop :=
  ∃ value ∈ getAll headers .vary, ∃ piece ∈ value.latin1.splitOn ',',
    HeaderName.fromBytes (trim piece) = some name

/-- A `Vary` line of the message lists `*`. -/
def SelectsOnStar (headers : HeaderMap) : Prop :=
  ∃ value ∈ getAll headers .vary, ∃ piece ∈ value.latin1.splitOn ',', trim piece = ['*']

theorem readNames_spec {pieces : List Str} (h : readNames pieces = some names) :
    (∀ name, name ∈ names ↔ ∃ piece ∈ pieces,
      HeaderName.fromBytes (trim piece) = some name) ∧
    ∀ piece ∈ pieces, trim piece ≠ ['*'] := by
  induction pieces generalizing names with
  | nil =>
    cases h
    simp
  | cons piece pieces ih =>
    rw [readNames] at h
    split_ifs at h with hempty hstar
    · obtain ⟨hnames, hpieces⟩ := ih h
      rw [List.isEmpty_iff] at hempty
      have hnone : HeaderName.fromBytes (trim piece) = none := by rw [hempty]; rfl
      refine ⟨fun name => ?_, ?_⟩
      · rw [hnames name]
        simp [hnone]
      · simpa [hempty] using hpieces
    · obtain ⟨name, hname, rest⟩ := Option.bind_eq_some_iff.mp h
      obtain ⟨more, hmore, heq⟩ := Option.bind_eq_some_iff.mp rest
      cases heq
      obtain ⟨hnames, hpieces⟩ := ih hmore
      refine ⟨fun other => ?_, ?_⟩
      · simp only [List.mem_cons, exists_eq_or_imp, hname, hnames other, Option.some.injEq]
        rw [eq_comm]
      · simpa [hstar] using hpieces

theorem readLines_spec {values : List HeaderValue} (h : readLines values = some names) :
    (∀ name, name ∈ names ↔ ∃ value ∈ values, ∃ piece ∈ value.latin1.splitOn ',',
      HeaderName.fromBytes (trim piece) = some name) ∧
    ∀ value ∈ values, ∀ piece ∈ value.latin1.splitOn ',', trim piece ≠ ['*'] := by
  induction values generalizing names with
  | nil =>
    cases h
    simp
  | cons value values ih =>
    obtain ⟨text, htext, h⟩ := Option.bind_eq_some_iff.mp h
    obtain ⟨front, hfront, h⟩ := Option.bind_eq_some_iff.mp h
    obtain ⟨more, hmore, heq⟩ := Option.bind_eq_some_iff.mp h
    cases heq
    obtain ⟨hnames, hpieces⟩ := readNames_spec hfront
    obtain ⟨hnames', hpieces'⟩ := ih hmore
    rw [← HeaderValue.latin1_of_toStr htext] at hnames hpieces
    refine ⟨fun name => ?_, ?_⟩
    · rw [List.mem_append, hnames name, hnames' name]
      simp
    · intro v hv
      rcases List.mem_cons.mp hv with rfl | hv
      · exact hpieces
      · exact hpieces' v hv

/-- **The names `vary_names` returns are those the lines list.** -/
theorem mem_varyNames (h : varyNames headers = some names) (name : HeaderName) :
    name ∈ names ↔ SelectsOn headers name := by
  obtain ⟨read, hread, rfl⟩ := Option.map_eq_some_iff.mp h
  rw [List.mem_dedup, List.mem_insertionSort]
  exact (readLines_spec hread).1 name

theorem not_selectsOnStar (h : varyNames headers = some names) : ¬ SelectsOnStar headers := by
  obtain ⟨read, hread, -⟩ := Option.map_eq_some_iff.mp h
  rintro ⟨value, hvalue, piece, hpiece, hstar⟩
  exact (readLines_spec hread).2 value hvalue piece hpiece hstar

end Chromulate.Cache
