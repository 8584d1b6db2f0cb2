import Chromulate.Http.Challenge
import Chromulate.Lib.Occurrence

/-!
# Clearing a challenge

`ChallengeHandoff::handle`: a response that is a challenge goes to a browser, what the browser earns
is stored, and the request is sent again, at most so many times. Each turn of the loop meets a
response, a detector, a browser and a session store that may be different each time (`Turn`), and
leaves a record of what it did with them (`Record`).

A turn goes on only after it has stored what a browser handed back for its own challenge
(`turn_spec`), so each record of a run but the last is that of a challenge (`recorded_handle`).

**Theorem (`handle_bounded`).** A run sends the request at most once more than the budget, always
the same request, and stores cookies only where their challenge came from.

**Theorem (`cleared_iff`).** The callback is given the URL of the last response. That has the origin
of a challenge that was cleared exactly if some earlier response came from there.
-/

namespace Chromulate.Http.Challenges

/-! ## The loop -/

/-- `Content`: a page that a fallback fetched. -/
structure Content where
  status : StatusCode
  headers : HeaderMap
  body : Bytes
  finalUrl : Url

inductive DeclineReason where
  | unsupportedKind (kind : ChallengeKind)
  | needsHuman
  | budgetExhausted
  | notCleared

inductive Handback where
  | session (setCookie : List HeaderValue) (content : Option Content)
  | content (content : Content)
  | declined (reason : DeclineReason)

def redactUserinfo (raw : Str) : Str :=
  let start := match Occurrence.first "://".toList raw with
    | some position => position + 3
    | none => 0
  let rest := raw.drop start
  match Text.beforeLast '@' (rest.takeWhile (· ≠ '/')) with
  | none => raw
  | some userinfo => raw.take start ++ "***@".toList ++ rest.drop (userinfo.length + 1)

/-- `Handoff`, without the clock. -/
structure Handoff where
  url : Url
  kind : ChallengeKind
  userAgent : HeaderValue
  exit : Option Str
  cookies : Option HeaderValue

def userAgentName : HeaderName := ⟨"user-agent".toList, by decide⟩

/-- `ChallengeHandoff`, as far as `handle` reads it. -/
structure Layer where
  /-- The profile's user agent, if it is a legal header value. -/
  profileAgent : Option HeaderValue
  /-- `BrowserFallback::handles`, with a fallback. -/
  handles : Option (ChallengeKind → Bool)
  isEligible : Request → Bool
  budget : Nat
  sniffLimit : Nat
  /-- Whether there is a `Cleared` callback. -/
  announces : Bool

/-- What one turn of the loop meets. -/
structure Turn (E : Type*) where
  /-- The rest of the chain. -/
  downstream : Except E (Response E)
  inspect : Observation → Detection
  /-- `SessionAccess::cookie_header`. -/
  cookieHeader : Option HeaderValue
  /-- `ChallengeHandoff::solve`: nothing if the origin's budget for the window is spent. -/
  solved : Option (Except E Handback)
  /-- Whether sessions are attached when the solve is over. -/
  sessions : Bool

/-- What one turn did. -/
structure Record where
  sent : Request
  seen : Option (Reported × Detection) := none
  handoff : Option Handoff := none
  /-- `SessionAccess::store_cookies`. -/
  stored : Option (Option Str × Url × List HeaderValue) := none
  /-- `announce_cleared`. -/
  cleared : Option Url := none

/-- What a request is answered with: a response, or a page that is marked as the fallback's. -/
inductive Answer (E : Type*) where
  | response (response : Response E)
  | fetched (content : Content)

/-- What the loop carries from turn to turn. -/
structure Running where
  sending : Body
  attempts : Nat
  applied : Option (Option Str)

section Handle

variable {E : Type*}

def Layer.userAgent (layer : Layer) (request : Request) : Option HeaderValue :=
  (request.headers.get userAgentName).or layer.profileAgent

/-- The second half of a turn, for a challenge. -/
def handOff (layer : Layer) (handles : ChallengeKind → Bool) (request : Request)
    (running : Running) (met : Turn E) (record : Record) (place : Reported)
    (challenge : Challenge) (response : Response E) :
    Record × (Running ⊕ Except E (Answer E)) :=
  if layer.budget ≤ running.attempts then (record, .inr (.ok (.response response)))
  else if !handles challenge.kind then (record, .inr (.ok (.response response)))
  else
    match layer.userAgent request with
    | none => (record, .inr (.ok (.response response)))
    | some userAgent =>
      let handoff :=
        { url := place.url
          kind := challenge.kind
          userAgent := userAgent
          exit := place.exit.map redactUserinfo
          cookies := met.cookieHeader }
      let record := { record with handoff := some handoff }
      match met.solved with
      | none => (record, .inr (.ok (.response response)))
      | some (.error error) => (record, .inr (.error error))
      | some (.ok (.session setCookie content)) =>
        if !met.sessions then
          match content with
          | some content => (record, .inr (.ok (.fetched content)))
          | none => (record, .inr (.ok (.response response)))
        else
          let record := { record with stored := some (place.exit, place.url, setCookie) }
          match request.body.tryClone with
          | none => (record, .inr (.ok (.response response)))
          | some again => (record, .inl ⟨again, running.attempts + 1, some place.exit⟩)
      | some (.ok (.content content)) => (record, .inr (.ok (.fetched content)))
      | some (.ok (.declined _)) => (record, .inr (.ok (.response response)))

/-- A turn of the loop of `handle`. -/
def turn (layer : Layer) (handles : ChallengeKind → Bool) (request : Request)
    (requested : Option Url) (running : Running) (met : Turn E) :
    Record × (Running ⊕ Except E (Answer E)) :=
  let record : Record := { sent := { request with body := running.sending } }
  match met.downstream with
  | .error error => (record, .inr (.error error))
  | .ok response =>
    match reported response requested with
    | none => (record, .inr (.ok (.response response)))
    | some place =>
      match detect layer.sniffLimit met.inspect response place with
      | .error error => (record, .inr (.error error))
      | .ok (detection, response) =>
        let record := { record with seen := some (place, detection) }
        match detection with
        | .challenged challenge =>
          handOff layer handles request running met record place challenge
            { response with challenge := some challenge }
        | _ =>
          let announced := running.applied.isSome && layer.announces
          ({ record with cleared := if announced then some place.url else none },
            .inr (.ok (.response response)))

/-- The path without a handoff. -/
def once (layer : Layer) (request : Request) (requested : Option Url) (met : Turn E) :
    List Record × Option (Except E (Answer E)) :=
  ([{ sent := request }],
    some (match met.downstream with
      | .error error => .error error
      | .ok response =>
        match observe layer.sniffLimit met.inspect requested response with
        | .error error => .error error
        | .ok response => .ok (.response response)))

def handle (layer : Layer) (request : Request) (requested : Option Url) (tape : Nat → Turn E) :
    List Record × Option (Except E (Answer E)) :=
  match layer.handles with
  | none => once layer request requested (tape 0)
  | some handles =>
    if !layer.isEligible request then once layer request requested (tape 0)
    else
      match request.body.tryClone with
      | none => once layer request requested (tape 0)
      | some first =>
        Loop.run (turn layer handles request requested) ⟨first, 0, none⟩
          ((List.range (layer.budget + 1)).map tape)

end Handle

/-! ## What a turn does -/

section Turn

variable {E : Type*} {layer : Layer} {handles : ChallengeKind → Bool} {request : Request}
  {requested : Option Url} {running next : Running} {met : Turn E}

/-- Cookies were stored for the challenge of the response that was met, as the browser that it was
handed to gave them back. -/
def Stored (layer : Layer) (requested : Option Url) (met : Turn E) (record : Record)
    (exit : Option Str) (url : Url) (cookies : List HeaderValue) : Prop :=
  ∃ response returned place challenge handoff content,
    met.downstream = .ok response ∧ reported response requested = some place ∧
    detect layer.sniffLimit met.inspect response place = .ok (.challenged challenge, returned) ∧
    record.seen = some (place, .challenged challenge) ∧
    record.handoff = some handoff ∧ handoff.url = place.url ∧
    handoff.exit = place.exit.map redactUserinfo ∧
    met.solved = some (.ok (.session cookies content)) ∧ exit = place.exit ∧ url = place.url

/-- The response that was met is no challenge. -/
def ClearAt (layer : Layer) (requested : Option Url) (met : Turn E) (place : Reported) : Prop :=
  ∃ response returned detection,
    met.downstream = .ok response ∧ reported response requested = some place ∧
    detect layer.sniffLimit met.inspect response place = .ok (detection, returned) ∧
    ∀ challenge, detection ≠ .challenged challenge

structure TurnSpec (layer : Layer) (request : Request) (requested : Option Url)
    (running : Running) (met : Turn E) (out : Record × (Running ⊕ Except E (Answer E))) :
    Prop where
  sent : out.1.sent = { request with body := running.sending }
  handoff : out.1.handoff.isSome → running.attempts < layer.budget
  stored : ∀ exit url cookies, out.1.stored = some (exit, url, cookies) →
    Stored layer requested met out.1 exit url cookies
  cleared : ∀ url, out.1.cleared = some url ↔
    running.applied.isSome ∧ layer.announces ∧ ∃ place, ClearAt layer requested met place ∧
      url = place.url
  continues : ∀ next, out.2 = .inl next → running.attempts < layer.budget ∧
    next.attempts = running.attempts + 1 ∧ request.body.tryClone = some next.sending ∧
    next.applied.isSome ∧ out.1.stored.isSome

/-- What becomes of a challenge. -/
structure HandOffSpec (layer : Layer) (request : Request) (running : Running) (met : Turn E)
    (record : Record) (place : Reported)
    (out : Record × (Running ⊕ Except E (Answer E))) : Prop where
  sent : out.1.sent = record.sent
  seen : out.1.seen = record.seen
  cleared : out.1.cleared = record.cleared
  handoff : out.1.handoff.isSome → running.attempts < layer.budget
  stored : ∀ exit url cookies, out.1.stored = some (exit, url, cookies) →
    ∃ handoff content, out.1.handoff = some handoff ∧ handoff.url = place.url ∧
      handoff.exit = place.exit.map redactUserinfo ∧
      met.solved = some (.ok (.session cookies content)) ∧ exit = place.exit ∧ url = place.url
  continues : ∀ next, out.2 = .inl next → running.attempts < layer.budget ∧
    next.attempts = running.attempts + 1 ∧ request.body.tryClone = some next.sending ∧
    next.applied.isSome ∧ out.1.stored.isSome

theorem handOff_spec {record : Record} (hhandoff : record.handoff = none)
    (hstored : record.stored = none) (place : Reported) (challenge : Challenge)
    (response : Response E) :
    HandOffSpec layer request running met record place
      (handOff layer handles request running met record place challenge response) := by
  have hidle : HandOffSpec layer request running met record place
      (record, .inr (.ok (.response response))) :=
    ⟨rfl, rfl, rfl, by simp [hhandoff], by simp [hstored], by simp⟩
  unfold handOff
  split
  · exact hidle
  · rename_i hbudget
    have hlt : running.attempts < layer.budget := not_le.mp hbudget
    split
    · exact hidle
    · split
      · exact hidle
      · -- from here on the challenge has been handed off
        split
        · exact ⟨rfl, rfl, rfl, fun _ => hlt, by simp [hstored], by simp⟩
        · exact ⟨rfl, rfl, rfl, fun _ => hlt, by simp [hstored], by simp⟩
        · rename_i setCookie content hsolved
          split
          · split <;> exact ⟨rfl, rfl, rfl, fun _ => hlt, by simp [hstored], by simp⟩
          · have hcookies : ∀ exit url cookies,
                some (place.exit, place.url, setCookie) = some (exit, url, cookies) →
                  met.solved = some (.ok (.session cookies content)) ∧ exit = place.exit ∧
                    url = place.url := by
              intro exit url cookies heq
              cases heq
              exact ⟨hsolved, rfl, rfl⟩
            split
            · exact ⟨rfl, rfl, rfl, fun _ => hlt, fun exit url cookies heq =>
                ⟨_, content, rfl, rfl, rfl, hcookies exit url cookies heq⟩, by simp⟩
            · rename_i again hclone
              refine ⟨rfl, rfl, rfl, fun _ => hlt, fun exit url cookies heq =>
                ⟨_, content, rfl, rfl, rfl, hcookies exit url cookies heq⟩, ?_⟩
              intro next hnext
              cases hnext
              exact ⟨hlt, rfl, hclone, rfl, rfl⟩
        · exact ⟨rfl, rfl, rfl, fun _ => hlt, by simp [hstored], by simp⟩
        · exact ⟨rfl, rfl, rfl, fun _ => hlt, by simp [hstored], by simp⟩

/-- **What a turn may do**, and when it goes on. -/
theorem turn_spec (layer : Layer) (handles : ChallengeKind → Bool) (request : Request)
    (requested : Option Url) (running : Running) (met : Turn E) :
    TurnSpec layer request requested running met
      (turn layer handles request requested running met) := by
  cases hdownstream : met.downstream with
  | error error =>
    rw [turn, hdownstream]
    exact ⟨rfl, by simp, by simp, by simp [ClearAt, hdownstream], by simp⟩
  | ok response =>
    cases hplace : reported response requested with
    | none =>
      simp only [turn, hdownstream, hplace]
      exact ⟨rfl, by simp, by simp, by simp [ClearAt, hdownstream, hplace], by simp⟩
    | some place =>
      cases hdetect : detect layer.sniffLimit met.inspect response place with
      | error error =>
        simp only [turn, hdownstream, hplace, hdetect]
        exact ⟨rfl, by simp, by simp, by simp [ClearAt, hdownstream, hplace, hdetect], by simp⟩
      | ok found =>
        obtain ⟨detection, returned⟩ := found
        have hclear : (∃ found, ClearAt layer requested met found) →
            ∀ challenge, detection ≠ .challenged challenge := by
          simp [ClearAt, hdownstream, hplace, hdetect]
        have hquiet : (∀ challenge, detection ≠ .challenged challenge) →
            ∀ url, (if running.applied.isSome && layer.announces then some place.url else none) =
              some url ↔ running.applied.isSome ∧ layer.announces ∧
                ∃ found, ClearAt layer requested met found ∧ url = found.url := by
          intro hnot url
          constructor
          · intro heq
            split_ifs at heq with happlied
            cases heq
            exact ⟨(Bool.and_eq_true_iff.mp happlied).1, (Bool.and_eq_true_iff.mp happlied).2,
              place, ⟨response, returned, detection, hdownstream, hplace, hdetect, hnot⟩, rfl⟩
          · rintro ⟨happlied, hannounces, found, ⟨met, _, _, hmet, hfound, -⟩, rfl⟩
            rw [hdownstream] at hmet
            cases hmet
            rw [hplace] at hfound
            cases hfound
            rw [happlied, hannounces, Bool.and_self, if_pos rfl]
        simp only [turn, hdownstream, hplace, hdetect]
        cases detection with
        | clear | suspect => exact ⟨rfl, by simp, by simp, hquiet (by simp), by simp⟩
        | challenged challenge =>
          have hspec : HandOffSpec layer request running met
              { sent := { request with body := running.sending }
                seen := some (place, .challenged challenge) } place
              (handOff layer handles request running met _ place challenge
                { returned with challenge := some challenge }) :=
            handOff_spec rfl rfl place challenge _
          refine ⟨hspec.sent, hspec.handoff, ?_, ?_, hspec.continues⟩
          · intro exit url cookies heq
            obtain ⟨handoff, content, hhandoff, hrest⟩ := hspec.stored exit url cookies heq
            exact ⟨response, returned, place, challenge, handoff, content, hdownstream, hplace,
              hdetect, hspec.seen, hhandoff, hrest⟩
          · intro url
            refine iff_of_false (by rw [hspec.cleared]; simp) ?_
            rintro ⟨-, -, found, hfound, -⟩
            exact hclear ⟨found, hfound⟩ challenge rfl

end Turn

/-! ## What a run does -/

section Run

variable {E : Type*} {layer : Layer} {handles : ChallengeKind → Bool} {request : Request}
  {requested : Option Url} {tape : Nat → Turn E}

/-- What the loop carries after some turns. -/
structure Carries (layer : Layer) (request : Request) (before : List Record)
    (running : Running) : Prop where
  attempts : running.attempts = before.length
  within : before.length ≤ layer.budget
  sending : running.sending = request.body
  applied : running.applied.isSome ↔ before ≠ []
  stored : ∀ record ∈ before, record.stored.isSome

theorem carries_step (handles : ChallengeKind → Bool) (requested : Option Url)
    (before : List Record) (running : Running) (met : Turn E)
    (h : Carries layer request before running) (next : Running)
    (hnext : (turn layer handles request requested running met).2 = .inl next) :
    Carries layer request (before ++ [(turn layer handles request requested running met).1])
      next := by
  obtain ⟨hlt, hattempts, hclone, happlied, hstored⟩ :=
    (turn_spec layer handles request requested running met).continues next hnext
  have hcount := h.attempts
  refine ⟨by simp [hattempts, hcount], by simp; omega, Body.eq_of_tryClone hclone,
    by simp [happlied], fun record hrecord => ?_⟩
  rcases List.mem_append.mp hrecord with hrecord | hrecord
  · exact h.stored record hrecord
  · rw [List.mem_singleton.mp hrecord]
    exact hstored

/-- What is known of a record: its turn, and that all before it stored something. -/
structure Recorded (layer : Layer) (request : Request) (requested : Option Url)
    (before : List Record) (met : Turn E) (record : Record) : Prop where
  sent : record.sent = request
  handoff : record.handoff.isSome → before.length < layer.budget
  stored : ∀ exit url cookies, record.stored = some (exit, url, cookies) →
    Stored layer requested met record exit url cookies
  cleared : ∀ url, record.cleared = some url ↔
    before ≠ [] ∧ layer.announces ∧ ∃ place, ClearAt layer requested met place ∧ url = place.url
  earlier : ∀ record ∈ before, record.stored.isSome

theorem Carries.recorded {before : List Record} {running : Running}
    (h : Carries layer request before running) (met : Turn E) :
    Recorded layer request requested before met
      (turn layer handles request requested running met).1 := by
  have hspec := turn_spec layer handles request requested running met
  refine ⟨?_, fun hsome => ?_, hspec.stored, fun url => ?_, h.stored⟩
  · rw [hspec.sent, h.sending]
  · rw [← h.attempts]
    exact hspec.handoff hsome
  · rw [hspec.cleared, h.applied]

theorem handle_cases (layer : Layer) (request : Request) (requested : Option Url)
    (tape : Nat → Turn E) :
    handle layer request requested tape = once layer request requested (tape 0) ∨
      ∃ handles, layer.isEligible request ∧ request.body.tryClone = some request.body ∧
        handle layer request requested tape =
          Loop.run (turn layer handles request requested) ⟨request.body, 0, none⟩
            ((List.range (layer.budget + 1)).map tape) := by
  unfold handle
  cases layer.handles with
  | none => exact Or.inl rfl
  | some handles =>
    cases heligible : layer.isEligible request with
    | false => exact Or.inl (by simp)
    | true =>
      cases hclone : request.body.tryClone with
      | none => exact Or.inl (by simp)
      | some first =>
        cases Body.eq_of_tryClone hclone
        exact Or.inr ⟨handles, rfl, rfl, by simp⟩

theorem carries_start : Carries layer request [] ⟨request.body, 0, none⟩ :=
  ⟨rfl, Nat.zero_le _, rfl, by simp, by simp⟩

/-- **Every record of a run** is that of a turn after others that stored something. -/
theorem recorded_handle {n : Nat} {record : Record}
    (h : (handle layer request requested tape).1[n]? = some record) :
    Recorded layer request requested ((handle layer request requested tape).1.take n) (tape n)
      record := by
  rcases handle_cases layer request requested tape with heq | ⟨handles, -, -, heq⟩
  · rw [heq] at h ⊢
    cases n with
    | succ n => simp [once] at h
    | zero =>
      cases h
      exact ⟨rfl, by simp, by simp, by simp, by simp⟩
  · rw [heq] at h ⊢
    obtain ⟨met, hmet, hrecorded⟩ := Loop.run_rule (Carries layer request)
      (fun before met record => Recorded layer request requested before met record)
      (fun before running met hcarries _ =>
        ⟨hcarries.recorded met, carries_step handles requested before running met hcarries⟩)
      (Loop.meets_true _ _) carries_start h
    have htape : met = tape n := by
      rw [List.getElem?_map, Option.map_eq_some_iff] at hmet
      obtain ⟨position, hposition, rfl⟩ := hmet
      rw [(List.getElem?_eq_some_iff.mp hposition).2.symm, List.getElem_range]
    rwa [← htape]

/-- What is promised of a run. -/
structure Bounded (layer : Layer) (request : Request) (requested : Option Url)
    (tape : Nat → Turn E) : Prop where
  runs : (handle layer request requested tape).1.length ≤ layer.budget + 1
  solves : (handle layer request requested tape).1.countP (·.handoff.isSome) ≤ layer.budget
  once : layer.isEligible request = false ∨ request.body.tryClone = none →
    (handle layer request requested tape).1.length = 1
  same : ∀ record ∈ (handle layer request requested tape).1, record.sent = request
  stored : ∀ n record exit url cookies,
    (handle layer request requested tape).1[n]? = some record →
      record.stored = some (exit, url, cookies) →
        Stored layer requested (tape n) record exit url cookies
  clear : ∀ response place detection returned, (tape 0).downstream = .ok response →
    reported response requested = some place →
    detect layer.sniffLimit (tape 0).inspect response place = .ok (detection, returned) →
    (∀ challenge, detection ≠ .challenged challenge) →
      (handle layer request requested tape).2 = some (.ok (.response returned)) ∧
        ∀ record ∈ (handle layer request requested tape).1, record.handoff = none
  answers : (handle layer request requested tape).2.isSome

theorem countP_le_of_getElem? {α : Type*} {p : α → Bool} {l : List α} {bound : Nat}
    (h : ∀ n x, l[n]? = some x → p x → n < bound) : l.countP p ≤ bound := by
  have hrest : (l.drop bound).countP p = 0 := by
    rw [List.countP_eq_zero]
    intro x hx hp
    obtain ⟨n, hn⟩ := List.mem_iff_getElem?.mp hx
    rw [List.getElem?_drop] at hn
    have := h _ x hn hp
    omega
  rw [← List.take_append_drop bound l, List.countP_append, hrest, Nat.add_zero]
  exact List.countP_le_length.trans (List.length_take_le _ _)

variable {place : Reported}

theorem handle_of_clear {response returned : Response E} {detection : Detection}
    (hresponse : (tape 0).downstream = .ok response)
    (hplace : reported response requested = some place)
    (hdetect : detect layer.sniffLimit (tape 0).inspect response place = .ok (detection, returned))
    (hclear : ∀ challenge, detection ≠ .challenged challenge) :
    (handle layer request requested tape).2 = some (.ok (.response returned)) ∧
      ∀ record ∈ (handle layer request requested tape).1, record.handoff = none := by
  rcases handle_cases layer request requested tape with heq | ⟨handles, -, -, heq⟩
  · rw [heq]
    cases detection with
    | challenged challenge => exact absurd rfl (hclear challenge)
    | clear | suspect => simp [Challenges.once, hresponse, observe, hplace, hdetect, attach]
  · rw [heq, List.range_succ_eq_map, List.map_cons]
    cases detection with
    | challenged challenge => exact absurd rfl (hclear challenge)
    | clear => simp [Loop.run, turn, hresponse, hplace, hdetect]
    | suspect => simp [Loop.run, turn, hresponse, hplace, hdetect]

/-- **The loop is bounded and keeps identities apart.** -/
theorem handle_bounded (layer : Layer) (request : Request) (requested : Option Url)
    (tape : Nat → Turn E) : Bounded layer request requested tape where
  runs := by
    rcases handle_cases layer request requested tape with heq | ⟨handles, -, -, heq⟩
    · simp [heq, Challenges.once]
    · have hlength := Loop.length_run_le (Carries layer request) (carries_step handles requested)
        (fun _ _ hcarries => hcarries.within) ((List.range (layer.budget + 1)).map tape) []
        carries_start
      rw [heq]
      simpa using hlength
  solves := countP_le_of_getElem? fun n record hrecord hsome => by
    have hlt := (List.getElem?_eq_some_iff.mp hrecord).1
    have hbefore := (recorded_handle hrecord).handoff hsome
    rwa [List.length_take_of_le (le_of_lt hlt)] at hbefore
  once h := by
    rcases handle_cases layer request requested tape with heq | ⟨handles, heligible, hclone, -⟩
    · simp [heq, Challenges.once]
    · rcases h with h | h
      · rw [h] at heligible
        cases heligible
      · rw [h] at hclone
        cases hclone
  same record hrecord := by
    obtain ⟨n, hn⟩ := List.mem_iff_getElem?.mp hrecord
    exact (recorded_handle hn).sent
  stored n record exit url cookies hrecord := (recorded_handle hrecord).stored exit url cookies
  clear response place detection returned := handle_of_clear
  answers := by
    rcases handle_cases layer request requested tape with heq | ⟨handles, -, -, heq⟩
    · simp [heq, Challenges.once]
    · rw [heq]
      exact Loop.isSome_run (Carries layer request) (carries_step handles requested)
        (fun _ _ hcarries => hcarries.within) [] carries_start (by simp)

/-! ## The callback -/

/-- The origin that a response reports. -/
def originOf (requested : Option Url) (met : Turn E) : Option Origin :=
  match met.downstream with
  | .error _ => none
  | .ok response => (reported response requested).map Reported.origin

/-- Every URL that the callback is given has the origin of an earlier challenge for which session
state was applied. -/
def ClearedMeansCleared (layer : Layer) (request : Request) (requested : Option Url)
    (tape : Nat → Turn E) : Prop :=
  ∀ (n : Nat) (record : Record) (url : Url),
    (handle layer request requested tape).1[n]? = some record → record.cleared = some url →
      ∃ (m : Nat) (earlier : Record) (place : Reported) (challenge : Challenge), m < n ∧
        (handle layer request requested tape).1[m]? = some earlier ∧
        earlier.seen = some (place, .challenged challenge) ∧ earlier.stored.isSome ∧
        Origin.ofUrl url = some place.origin

theorem ofUrl_of_reported {response : Response E} (h : reported response requested = some place) :
    Origin.ofUrl place.url = some place.origin := by
  obtain ⟨info, -, hinfo⟩ := Option.bind_eq_some_iff.mp h
  obtain ⟨origin, horigin, rfl⟩ := Option.map_eq_some_iff.mp hinfo
  exact horigin

theorem ClearAt.originOf {met : Turn E} (h : ClearAt layer requested met place) :
    originOf requested met = some place.origin ∧ Origin.ofUrl place.url = some place.origin := by
  obtain ⟨response, returned, detection, hresponse, hplace, -⟩ := h
  exact ⟨by rw [Challenges.originOf, hresponse]; simp [hplace], ofUrl_of_reported hplace⟩

/-- A record that stored something is that of a challenge, from the origin its response reports. -/
theorem challenged_of_stored {n : Nat} {record : Record}
    (h : (handle layer request requested tape).1[n]? = some record)
    (hstored : record.stored.isSome) :
    (∀ place, ¬ ClearAt layer requested (tape n) place) ∧
      ∃ place challenge, record.seen = some (place, .challenged challenge) ∧
        originOf requested (tape n) = some place.origin := by
  obtain ⟨⟨exit, url, cookies⟩, hsome⟩ := Option.isSome_iff_exists.mp hstored
  obtain ⟨response, returned, place, challenge, -, -, hresponse, hplace, hdetect, hseen, -⟩ :=
    (recorded_handle h).stored exit url cookies hsome
  refine ⟨?_, place, challenge, hseen, by rw [originOf, hresponse]; simp [hplace]⟩
  rintro found ⟨met, _, detection, hmet, hfound, hagain, hclear⟩
  rw [hresponse] at hmet
  cases hmet
  rw [hplace] at hfound
  cases hfound
  rw [hdetect] at hagain
  cases hagain
  exact hclear challenge rfl

theorem ClearedMeansCleared.origin (h : ClearedMeansCleared layer request requested tape)
    {last : Nat} (hlength : (handle layer request requested tape).1.length = last + 1)
    (hpos : 0 < last) (hannounces : layer.announces)
    (hplace : ClearAt layer requested (tape last) place) :
    ∃ m, m < last ∧ originOf requested (tape m) = originOf requested (tape last) := by
  obtain ⟨record, hrecord⟩ : ∃ record,
      (handle layer request requested tape).1[last]? = some record :=
    ⟨_, List.getElem?_eq_getElem (by omega)⟩
  have hbefore : (handle layer request requested tape).1.take last ≠ [] := by
    rw [← List.length_pos_iff, List.length_take]
    omega
  have hcleared := ((recorded_handle hrecord).cleared place.url).mpr
    ⟨hbefore, hannounces, place, hplace, rfl⟩
  obtain ⟨m, earlier, there, challenge, hm, hearlier, hseen, hstored, horigin⟩ :=
    h last record place.url hrecord hcleared
  obtain ⟨-, found, _, hfound, hthere⟩ := challenged_of_stored hearlier hstored
  rw [hseen] at hfound
  cases hfound
  refine ⟨m, hm, ?_⟩
  rw [hthere, hplace.originOf.1, ← horigin, hplace.originOf.2]

/-- **What was announced was cleared** exactly if the last response of a run that ends without a
challenge comes from the origin of an earlier one. -/
theorem cleared_iff (layer : Layer) (request : Request) (requested : Option Url)
    (tape : Nat → Turn E) :
    ClearedMeansCleared layer request requested tape ↔
      ∀ last, (handle layer request requested tape).1.length = last + 1 → 0 < last →
        layer.announces → (∃ place, ClearAt layer requested (tape last) place) →
          ∃ m, m < last ∧ originOf requested (tape m) = originOf requested (tape last) := by
  constructor
  · exact fun h last hlength hpos hannounces ⟨place, hplace⟩ =>
      h.origin hlength hpos hannounces hplace
  · intro h n record url hrecord hcleared
    obtain ⟨hbefore, hannounces, place, hplace, rfl⟩ :=
      ((recorded_handle hrecord).cleared url).mp hcleared
    have hlt := (List.getElem?_eq_some_iff.mp hrecord).1
    -- every record but the last has stored something, and so is that of a challenge
    have hlast : (handle layer request requested tape).1.length = n + 1 := by
      by_contra hnot
      have hnext := List.getElem?_eq_getElem
        (show n + 1 < (handle layer request requested tape).1.length by omega)
      have hmem : record ∈ (handle layer request requested tape).1.take (n + 1) :=
        List.mem_of_getElem? ((List.getElem?_take_of_lt (Nat.lt_succ_self n)).trans hrecord)
      exact (challenged_of_stored hrecord ((recorded_handle hnext).earlier record hmem)).1 place
        hplace
    have hpos : 0 < n := by
      refine Nat.pos_of_ne_zero fun hzero => hbefore ?_
      rw [hzero, List.take_zero]
    obtain ⟨m, hm, horigin⟩ := h n hlast hpos hannounces ⟨place, hplace⟩
    have hearlier := List.getElem?_eq_getElem
      (show m < (handle layer request requested tape).1.length by omega)
    have hmem := List.mem_of_getElem? ((List.getElem?_take_of_lt hm).trans hearlier)
    have hstored := (recorded_handle hrecord).earlier _ hmem
    obtain ⟨-, there, challenge, hseen, hthere⟩ := challenged_of_stored hearlier hstored
    refine ⟨m, _, there, challenge, hm, hearlier, hseen, hstored, ?_⟩
    rw [hplace.originOf.2, ← hthere, horigin, hplace.originOf.1]

end Run

/-! ### A run that ends elsewhere -/

/-- A page of a host, and whether it is a challenge. -/
def answerFrom (host : String) (status : StatusCode) : Turn Str where
  downstream := .ok
    { status := status
      headers := []
      body := .fixed []
      info := some ⟨.plain "https" host "/", none, none⟩
      challenge := none }
  inspect seen :=
    if seen.status = 403 then .challenged ⟨.jsRequired, seen.origin, []⟩ else .clear
  cookieHeader := none
  solved := some (.ok (.session [.fromStatic "clearance=1"] none))
  sessions := true

/-- A layer with a browser for every kind of challenge. -/
def browsing : Layer where
  profileAgent := some (.fromStatic "Mozilla/5.0")
  handles := some fun _ => true
  isEligible _ := true
  budget := 2
  sniffLimit := 1024
  announces := true

def pageRequest : Request where
  method := .get
  uri := ⟨some "https".toList, some "a.example".toList, some "/".toList⟩
  version := .http11
  headers := []
  body := .empty
  options := {}
  userActivated := false

/-- A challenge, and then a page of the given host. -/
def challengedThen (host : String) (n : Nat) : Turn Str :=
  if n = 0 then answerFrom "a.example" 403 else answerFrom host 200

theorem cleared_same_origin :
    ClearedMeansCleared browsing pageRequest none (challengedThen "a.example") :=
  (cleared_iff browsing pageRequest none (challengedThen "a.example")).mpr
    fun last _ hpos _ _ => by
      refine ⟨0, hpos, ?_⟩
      rw [challengedThen, challengedThen, if_pos rfl, if_neg (Nat.ne_of_gt hpos)]
      rfl

/-- The re-run was redirected, and another origin is announced. -/
theorem redirect_clears_other_origin :
    ¬ ClearedMeansCleared browsing pageRequest none (challengedThen "b.example") := by
  intro h
  have hlength : (handle browsing pageRequest none (challengedThen "b.example")).1.length = 1 + 1 :=
    by decide +kernel
  have hplace : ClearAt browsing none (challengedThen "b.example" 1)
      ⟨.plain "https" "b.example" "/", ⟨"https".toList, "b.example".toList, 443⟩, none, none⟩ :=
    ⟨_, _, .clear, rfl, rfl, rfl, by simp⟩
  obtain ⟨m, hm, horigin⟩ := h.origin hlength Nat.one_pos rfl hplace
  obtain rfl : m = 0 := by omega
  revert horigin
  decide +kernel

end Chromulate.Http.Challenges
