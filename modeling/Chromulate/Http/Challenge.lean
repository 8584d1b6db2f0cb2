import Chromulate.Http.Engine

/-!
# Looking for a challenge

The detecting half of `chromulate-http/src/middleware/challenge.rs`. A detector is shown the head of
a response and may ask for the front of its body. That is read off the body, up to a limit, and put
back before the rest.

**Theorem (`passes_iff`).** The caller gets the response it would have got exactly if a body whose
front is read either reaches the limit, or ends before it without an error and at the length it
declared. An error before the limit becomes the answer to the whole request, and a body that ends
before it has its own length for the declared one.
-/

namespace Chromulate.Http.Challenges

/-! ## Responses -/

/-- A body as it is read: the chunks it yields, the error it ends in if it does, and
`Body::content_length`. -/
structure Flow (E : Type*) where
  chunks : List Bytes
  failure : Option E
  contentLength : Option Nat

namespace Flow

variable {E : Type*}

def fixed (bytes : Bytes) : Flow E :=
  ⟨if bytes.isEmpty then [] else [bytes], none, some bytes.length⟩

/-- Everything that reading yields before the end. -/
def bytes (flow : Flow E) : Bytes := flow.chunks.flatten

end Flow

inductive ChallengeKind where
  | jsRequired
  | cookieRequired
  | interactive
  | unknown
  deriving DecidableEq

structure Challenge where
  kind : ChallengeKind
  origin : Origin
  evidence : List Str
  deriving DecidableEq

inductive Detection where
  | clear
  | suspect
  | challenged (challenge : Challenge)
  deriving DecidableEq

/-- A redirect that was followed. -/
structure Hop where
  url : Url
  status : StatusCode

/-- `ResponseInfo`, as far as this layer reads it. -/
structure ResponseInfo where
  url : Url
  hops : Option (List Hop)
  exit : Option Str

/-- A response, with the two extensions this layer reads and writes. -/
structure Response (E : Type*) where
  status : StatusCode
  headers : HeaderMap
  body : Flow E
  info : Option ResponseInfo
  challenge : Option Challenge

/-- What a detector is shown. -/
structure Observation where
  status : StatusCode
  headers : HeaderMap
  url : Url
  origin : Origin
  hops : List Hop
  bodyPrefix : Option Bytes

/-- What a finished response reported about itself. -/
structure Reported where
  url : Url
  origin : Origin
  hops : Option (List Hop)
  exit : Option Str

section Detect

variable {E : Type*}

/-- `ChallengeHandoff::reported`; `requested` is the URL that the request's own URI parses to. -/
def reported (response : Response E) (requested : Option Url) : Option Reported :=
  let info : Option ResponseInfo := match response.info with
    | some info => some info
    | none => requested.map fun url => ⟨url, none, none⟩
  info.bind fun info =>
    (Origin.ofUrl info.url).map fun origin => ⟨info.url, origin, info.hops, info.exit⟩

def worthSniffing (sniffLimit : Nat) (response : Response E) : Bool :=
  match ((response.headers.get .contentLength).bind HeaderValue.toStr).bind
    (Text.parseUnsigned (2 ^ 64 - 1)) with
  | some declared => declared ≤ sniffLimit
  | none => true

/-- The loop of `peek`, with what is buffered and what is left to read. -/
def peekLoop (cap : Nat) (body : Flow E) (buffered : Bytes) :
    List Bytes → Except E (Bytes × Flow E)
  | [] =>
    if buffered.length < cap then
      match body.failure with
      | none => .ok (buffered, .fixed buffered)
      | some error => .error error
    else .ok (buffered, { body with chunks := [buffered] })
  | chunk :: chunks =>
    if buffered.length < cap then peekLoop cap body (buffered ++ chunk) chunks
    else .ok (buffered, { body with chunks := buffered :: chunk :: chunks })

def peek (body : Flow E) (cap : Nat) : Except E (Bytes × Flow E) := peekLoop cap body [] body.chunks

/-- The observation of `ChallengeHandoff::inspect`. -/
def observation (response : Response E) (place : Reported) (front : Option Bytes) : Observation :=
  ⟨response.status, response.headers, place.url, place.origin, place.hops.getD [], front⟩

def detect (sniffLimit : Nat) (inspect : Observation → Detection) (response : Response E)
    (place : Reported) : Except E (Detection × Response E) :=
  let first := inspect (observation response place none)
  if first ≠ .suspect then .ok (first, response)
  else if !worthSniffing sniffLimit response then .ok (.clear, response)
  else
    match peek response.body sniffLimit with
    | .error error => .error error
    | .ok (front, body) =>
      let response := { response with body := body }
      let second := inspect (observation response place (some front))
      .ok (if second = .suspect then .clear else second, response)

/-- The detection goes with the response. -/
def attach (detection : Detection) (response : Response E) : Response E :=
  match detection with
  | .challenged challenge => { response with challenge := some challenge }
  | _ => response

def observe (sniffLimit : Nat) (inspect : Observation → Detection) (requested : Option Url)
    (response : Response E) : Except E (Response E) :=
  match reported response requested with
  | none => .ok response
  | some place =>
    match detect sniffLimit inspect response place with
    | .error error => .error error
    | .ok (detection, response) => .ok (attach detection response)

end Detect

/-! ## What is left of the response -/

section Unchanged

variable {E : Type*} {sniffLimit : Nat} {inspect : Observation → Detection}
  {requested : Option Url} {response returned : Response E}

/-- Two responses that the caller cannot tell apart by reading them. -/
structure Unchanged (response returned : Response E) : Prop where
  status : returned.status = response.status
  headers : returned.headers = response.headers
  bytes : returned.body.bytes = response.body.bytes
  failure : returned.body.failure = response.body.failure
  contentLength : ∀ n, response.body.contentLength = some n →
    returned.body.contentLength = some n

/-- A response passes through detection. -/
def Passes (sniffLimit : Nat) (inspect : Observation → Detection) (requested : Option Url)
    (response : Response E) : Prop :=
  ∃ returned, observe sniffLimit inspect requested response = .ok returned ∧
    Unchanged response returned

theorem Unchanged.refl (response : Response E) : Unchanged response response :=
  ⟨rfl, rfl, rfl, rfl, fun _ h => h⟩

/-- Attaching a detection changes nothing of what is read. -/
theorem unchanged_attach (detection : Detection) :
    Unchanged response (attach detection returned) ↔ Unchanged response returned := by
  cases detection with
  | clear => rfl
  | suspect => rfl
  | challenged challenge =>
    constructor <;>
      exact fun h => ⟨h.status, h.headers, h.bytes, h.failure, h.contentLength⟩

theorem peekLoop_of_le {cap : Nat} {body : Flow E} {buffered : Bytes} {chunks : List Bytes}
    (h : cap ≤ (buffered ++ chunks.flatten).length) :
    ∃ front rest, peekLoop cap body buffered chunks = .ok (front, { body with chunks := rest }) ∧
      rest.flatten = buffered ++ chunks.flatten := by
  induction chunks generalizing buffered with
  | nil =>
    have hnot : ¬ buffered.length < cap := by simpa using h
    exact ⟨buffered, [buffered], by rw [peekLoop, if_neg hnot], by simp⟩
  | cons chunk chunks ih =>
    by_cases hlt : buffered.length < cap
    · obtain ⟨front, rest, hloop, hrest⟩ := @ih (buffered ++ chunk) (by simpa using h)
      exact ⟨front, rest, by rw [peekLoop, if_pos hlt, hloop], by simpa using hrest⟩
    · exact ⟨buffered, _, by rw [peekLoop, if_neg hlt], by simp⟩

theorem peekLoop_of_lt {cap : Nat} {body : Flow E} {buffered : Bytes} {chunks : List Bytes}
    (h : (buffered ++ chunks.flatten).length < cap) :
    peekLoop cap body buffered chunks =
      match body.failure with
      | none => .ok (buffered ++ chunks.flatten, .fixed (buffered ++ chunks.flatten))
      | some error => .error error := by
  induction chunks generalizing buffered with
  | nil =>
    rw [List.flatten_nil, List.append_nil] at h ⊢
    rw [peekLoop, if_pos h]
  | cons chunk chunks ih =>
    have hlt : buffered.length < cap := by
      rw [List.length_append] at h
      omega
    rw [List.flatten_cons, ← List.append_assoc] at h ⊢
    rw [peekLoop, if_pos hlt, ih h]

theorem bytes_fixed (bytes : Bytes) : (Flow.fixed bytes : Flow E).bytes = bytes := by
  cases bytes <;> simp [Flow.fixed, Flow.bytes]

/-- **What the caller gets** is what it would have got, unless an error comes before the limit or
the body ends before it at another length than it declared. -/
theorem passes_iff (sniffLimit : Nat) (inspect : Observation → Detection) (requested : Option Url)
    (response : Response E) :
    Passes sniffLimit inspect requested response ↔
      ∀ place, reported response requested = some place →
        inspect (observation response place none) = .suspect →
          worthSniffing sniffLimit response →
            sniffLimit ≤ response.body.bytes.length ∨
              response.body.failure = none ∧
                ∀ n, response.body.contentLength = some n → n = response.body.bytes.length := by
  cases hplace : reported response requested with
  | none =>
    refine iff_of_true ⟨response, ?_, .refl response⟩ (by simp)
    rw [observe, hplace]
  | some place =>
    simp only [Option.some.injEq, forall_eq']
    by_cases hfirst : inspect (observation response place none) = .suspect
    · by_cases hworth : worthSniffing sniffLimit response
      · simp only [hfirst, hworth, forall_const]
        have hobserve : observe sniffLimit inspect requested response =
            match peek response.body sniffLimit with
            | .error error => .error error
            | .ok (front, body) =>
              let response := { response with body := body }
              let second := inspect (observation response place (some front))
              .ok (attach (if second = .suspect then .clear else second) response) := by
          simp only [observe, hplace, detect, hfirst, hworth]
          cases peek response.body sniffLimit <;> rfl
        by_cases hle : sniffLimit ≤ response.body.bytes.length
        · obtain ⟨front, rest, hpeek, hrest⟩ :=
            @peekLoop_of_le E sniffLimit response.body [] response.body.chunks hle
          rw [peek, hpeek] at hobserve
          refine iff_of_true ⟨_, hobserve, (unchanged_attach _).mpr ?_⟩ (Or.inl hle)
          exact ⟨rfl, rfl, hrest, rfl, fun _ h => h⟩
        · rw [peek, peekLoop_of_lt (by simpa [Flow.bytes] using hle)] at hobserve
          cases hfailure : response.body.failure with
          | some error =>
            rw [hfailure] at hobserve
            refine iff_of_false ?_ (by simp [hle])
            rintro ⟨returned, hreturned, -⟩
            rw [hobserve] at hreturned
            cases hreturned
          | none =>
            rw [hfailure] at hobserve
            simp only [hle, false_or, true_and]
            constructor
            · rintro ⟨returned, hreturned, hsame⟩ n hn
              rw [hobserve] at hreturned
              cases hreturned
              have hlength := ((unchanged_attach _).mp hsame).contentLength n hn
              exact (Option.some.inj hlength).symm
            · intro hlength
              refine ⟨_, hobserve, (unchanged_attach _).mpr ?_⟩
              refine ⟨rfl, rfl, bytes_fixed _, hfailure.symm, fun n hn => ?_⟩
              rw [hlength n hn]
              rfl
      · refine iff_of_true ⟨response, ?_, .refl response⟩ (by simp [hworth])
        simp [observe, hplace, detect, hfirst, hworth, attach]
    · have hobserve : observe sniffLimit inspect requested response =
          .ok (attach (inspect (observation response place none)) response) := by
        simp [observe, hplace, detect, hfirst]
      exact iff_of_true ⟨_, hobserve, (unchanged_attach _).mpr (.refl response)⟩ (by simp [hfirst])

/-- A detector that wants to see the body of every page. -/
def curious (seen : Observation) : Detection :=
  if seen.bodyPrefix.isSome then .clear else .suspect

/-- A page in two chunks, and how it ends. -/
def page (failure : Option Str) : Response Str where
  status := 200
  headers := []
  body := ⟨[[60, 104], [116]], failure, some 3⟩
  info := none
  challenge := none

theorem passes_whole_page :
    Passes 4 curious (some (.plain "https" "a.example" "/")) (page none) :=
  (passes_iff 4 curious _ (page none)).mpr fun _ _ _ _ =>
    Or.inr ⟨rfl, fun _ hn => (Option.some.inj hn).symm⟩

/-- An error in a body that nobody had to read. -/
theorem early_error_fails_request :
    ¬ Passes 4 curious (some (.plain "https" "a.example" "/"))
      (page (some "connection reset".toList)) := by
  rintro ⟨returned, hreturned, -⟩
  have hobserve : observe 4 curious (some (.plain "https" "a.example" "/"))
      (page (some "connection reset".toList)) = .error "connection reset".toList := rfl
  rw [hobserve] at hreturned
  cases hreturned

end Unchanged

end Chromulate.Http.Challenges
