import Chromulate.Core.Request

/-!
# Building a request

`chromulate/src/request.rs`: the calls that put header fields on a request, and what `build` makes
of them and of the client's own fields. All three loops go through a map value by value and insert
each, and an insertion replaces what was there, so of several values of one name the last is left.

**Theorem (`reaches_iff`).** A request carries what its builder was handed exactly if no name was
last handed several values.
-/

namespace Chromulate.Client

open HeaderMap

/-- `Parts`, as far as the calls for header fields and `build` use them. -/
structure Parts where
  method : Method
  url : Url
  headers : HeaderMap

/-- `RequestBuilder`: its parts, or the text of the first `Error::Builder`. -/
abbrev RequestBuilder := Except Str Parts

/-- A request as it is built, without its body and its options. -/
structure Built where
  method : Method
  uri : Uri
  headers : HeaderMap

/-- The loop that all maps are taken over with. -/
def insertAll (headers : HeaderMap) (more : HeaderMap) : HeaderMap :=
  (iter more).foldl (fun headers field => headers.insert field.1 field.2) headers

/-- A call on a builder. A name that does not convert comes with the text of its error. -/
inductive Call where
  | header (name : Except Str HeaderName) (value : Str)
  | headers (map : HeaderMap)

namespace RequestBuilder

/-- `RequestBuilder::new`, for a URL or the text of what is wrong with it. -/
def new (method : Method) (url : Except Str Url) : RequestBuilder :=
  url.map fun url => { method := method, url := url, headers := [] }

def header (name : Except Str HeaderName) (value : Str) (parts : Parts) : Except Str Parts :=
  match name with
  | .error error => .error ("invalid header name: ".toList ++ error)
  | .ok name =>
    match HeaderValue.fromStr value with
    | none => .error "invalid header value: failed to parse header value".toList
    | some value => .ok { parts with headers := parts.headers.insert name value }

def headers (map : HeaderMap) (parts : Parts) : Except Str Parts :=
  .ok { parts with headers := insertAll parts.headers map }

/-- A call, through `RequestBuilder::with`. -/
def call (builder : RequestBuilder) (call : Call) : RequestBuilder :=
  match builder with
  | .error error => .error error
  | .ok parts =>
    match call with
    | .header name value => header name value parts
    | .headers map => headers map parts

/-- `RequestBuilder::build_with_url`; `toUri` is the `http` crate's reading of a URL. -/
def build (toUri : Url → Except Str Uri) (defaultHeaders : HeaderMap) (builder : RequestBuilder) :
    Except Str Built :=
  match builder with
  | .error error => .error error
  | .ok parts =>
    match toUri parts.url with
    | .error error => .error error
    | .ok uri =>
      .ok
        { method := parts.method
          uri := uri
          headers := insertAll (insertAll [] defaultHeaders) parts.headers }

end RequestBuilder

/-! ## What was handed over -/

/-- The values that a call hands over for a name. -/
def Call.values (name : HeaderName) : Call → List HeaderValue
  | .header (.ok called) value => if called = name then (HeaderValue.fromStr value).toList else []
  | .header (.error _) _ => []
  | .headers map => map.getAll name

/-- The values of the last call that mentions a name, or else the client's. -/
def handed (defaultHeaders : HeaderMap) (calls : List Call) (name : HeaderName) :
    List HeaderValue :=
  (((calls.map (Call.values name)).filter fun values => !values.isEmpty).getLast?).getD
    (defaultHeaders.getAll name)

/-- The request carries exactly what was handed over. -/
def Reaches (defaultHeaders : HeaderMap) (calls : List Call) (built : Built) : Prop :=
  ∀ name, built.headers.getAll name = handed defaultHeaders calls name

theorem getAll_insertAll (headers more : HeaderMap) (name : HeaderName) :
    (insertAll headers more).getAll name =
      if more.getAll name = [] then headers.getAll name
      else (more.getAll name).getLast?.toList := by
  have hfields : ∀ fields : HeaderMap, getAll
      (fields.foldl (fun headers field => headers.insert field.1 field.2) headers) name =
        if fields.getAll name = [] then headers.getAll name
        else (fields.getAll name).getLast?.toList := by
    intro fields
    induction fields using List.reverseRecOn with
    | nil => rfl
    | append_singleton fields field ih =>
      have happend : getAll (fields ++ [field]) name =
          getAll fields name ++ if name = field.1 then [field.2] else [] :=
        getAll_append fields field.1 name field.2
      rw [List.foldl_append, List.foldl_cons, List.foldl_nil, getAll_insert, happend, ih]
      by_cases hname : name = field.1
      · simp [hname]
      · simp [hname]
  rw [insertAll, hfields, getAll_iter]

theorem getAll_calls {method : Method} {url : Except Str Url} {calls : List Call} {parts : Parts}
    (h : calls.foldl RequestBuilder.call (.new method url) = .ok parts) (name : HeaderName) :
    parts.headers.getAll name = (handed [] calls name).getLast?.toList := by
  induction calls using List.reverseRecOn generalizing parts with
  | nil =>
    cases url with
    | error error => cases h
    | ok url =>
      cases h
      rfl
  | append_singleton calls last ih =>
    rw [List.foldl_append, List.foldl_cons, List.foldl_nil] at h
    cases hbefore : calls.foldl RequestBuilder.call (.new method url) with
    | error error =>
      rw [hbefore] at h
      cases h
    | ok before =>
      rw [hbefore] at h
      -- a call puts its last value in the place of what was there, if it has one
      have hstep : parts.headers.getAll name =
          if last.values name = [] then before.headers.getAll name
          else (last.values name).getLast?.toList := by
        cases last with
        | headers map =>
          cases h
          exact getAll_insertAll _ _ _
        | header called value =>
          cases called with
          | error error => cases h
          | ok called =>
            simp only [RequestBuilder.call, RequestBuilder.header] at h
            cases hvalue : HeaderValue.fromStr value with
            | none =>
              rw [hvalue] at h
              cases h
            | some held =>
              rw [hvalue] at h
              cases h
              rw [getAll_insert]
              by_cases hname : name = called
              · simp [Call.values, hname, hvalue]
              · simp [Call.values, hname, Ne.symm hname]
      rw [hstep, ih hbefore, handed, handed, List.map_append, List.filter_append]
      by_cases hempty : last.values name = []
      · simp [hempty]
      · simp [hempty]

/-- **Of what was handed over the last value is left.** -/
theorem getAll_build {toUri : Url → Except Str Uri} {defaultHeaders : HeaderMap} {method : Method}
    {url : Except Str Url} {calls : List Call} {built : Built}
    (h : (calls.foldl RequestBuilder.call (.new method url)).build toUri defaultHeaders =
      .ok built) (name : HeaderName) :
    built.headers.getAll name = (handed defaultHeaders calls name).getLast?.toList := by
  cases hcalls : calls.foldl RequestBuilder.call (.new method url) with
  | error error =>
    rw [hcalls] at h
    cases h
  | ok parts =>
    rw [hcalls, RequestBuilder.build] at h
    split at h
    · cases h
    · cases h
      have hparts := getAll_calls hcalls name
      rw [getAll_insertAll, getAll_insertAll, hparts]
      rw [handed, handed]
      cases hlast : ((calls.map (Call.values name)).filter fun values => !values.isEmpty).getLast?
        with
      | none => by_cases hdefault : defaultHeaders.getAll name = [] <;> simp [hdefault]
      | some values =>
        have hne : values ≠ [] := by
          have hmem := List.mem_of_getLast? hlast
          simpa using (List.mem_filter.mp hmem).2
        obtain ⟨front, value, rfl⟩ := (List.eq_nil_or_concat values).resolve_left hne
        simp

/-- **A request carries what was handed over** if no name was last handed several values. -/
theorem reaches_iff {toUri : Url → Except Str Uri} {defaultHeaders : HeaderMap} {method : Method}
    {url : Except Str Url} {calls : List Call} {built : Built}
    (h : (calls.foldl RequestBuilder.call (.new method url)).build toUri defaultHeaders =
      .ok built) :
    Reaches defaultHeaders calls built ↔
      ∀ name, (handed defaultHeaders calls name).length ≤ 1 := by
  refine forall_congr' fun name => ?_
  rw [getAll_build h]
  constructor
  · intro heq
    rw [← heq]
    cases (handed defaultHeaders calls name).getLast? <;> simp
  · intro hlength
    match handed defaultHeaders calls name, hlength with
    | [], _ => rfl
    | [value], _ => rfl

/-- The reading of URLs that have a path and nothing behind it. -/
def plainUri (url : Url) : Except Str Uri := .ok ⟨some url.scheme, url.host, some url.path⟩

/-- The request that some calls build for a URL, with one field of the client's. -/
def builtBy (calls : List Call) : Except Str Built :=
  (calls.foldl RequestBuilder.call (.new .get (.ok (.plain "https" "a.example" "/")))).build
    plainUri [(.pragma, .fromStatic "no-cache")]

/-- A call for one field, and one for a map that has another value for it. -/
def oneByOne : List Call :=
  [.header (.ok .range) "bytes=0-".toList,
    .headers [(.cookie, .fromStatic "a=1"), (.range, .fromStatic "bytes=1-")],
    .header (.ok .cookie) "b=2".toList]

theorem reaches_one_value :
    ∃ built, builtBy oneByOne = .ok built ∧
      Reaches [(.pragma, .fromStatic "no-cache")] oneByOne built := by
  obtain ⟨built, hbuilt⟩ : ∃ built, builtBy oneByOne = .ok built := ⟨_, rfl⟩
  refine ⟨built, hbuilt, ?_⟩
  rw [builtBy] at hbuilt
  refine (reaches_iff hbuilt).mpr fun name => ?_
  by_cases hrange : HeaderName.range = name
  · subst hrange
    decide
  by_cases hcookie : HeaderName.cookie = name
  · subst hcookie
    decide
  by_cases hpragma : HeaderName.pragma = name <;>
    simp [handed, oneByOne, Call.values, getAll, hrange, hcookie, hpragma]

/-- Of two cookies the first is lost. -/
theorem second_cookie_replaces :
    ∃ built, builtBy [.headers [(.cookie, .fromStatic "a=1"), (.cookie, .fromStatic "b=2")]] =
        .ok built ∧
      ¬ Reaches [(.pragma, .fromStatic "no-cache")]
        [.headers [(.cookie, .fromStatic "a=1"), (.cookie, .fromStatic "b=2")]] built := by
  refine ⟨_, rfl, fun h => ?_⟩
  exact absurd (h .cookie) (by decide)

end Chromulate.Client
