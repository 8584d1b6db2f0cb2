import Chromulate.Cache.Exchange

/-!
# Bodies that store themselves

`Recording::poll_next` of `chromulate-cache/src/cache.rs` as the caller drives it: each poll asks
the body underneath until it answers with something other than trailers, buffers what passes, and
at the end of the body makes the one write there is. The body underneath may answer anything at any
time, also after an error or after its end.

**Theorem (`recording_exact`).** However often a recorded body is polled, the caller gets the
answers of the body underneath, trailers apart. The entry is written if and only if the end was
among them with no error before it, the data fits the budget and the `Content-Length` that is kept
agrees with its length. The agreement then holds for all that is ever stored, in every run of the
cache.

The writes are a function of what the caller has been given (`writes_eq`), and a `304` leaves the
`Content-Length` alone (`CacheEntry.Agrees.refreshed`).
-/

namespace Chromulate.Cache

open HeaderMap

/-! ## Polls -/

/-- What one `poll_frame` of the body underneath answers, with the errors of any type. -/
inductive Polled (ε : Type*) where
  | pending
  | data (chunk : Bytes)
  | trailers
  | error (failure : ε)
  | done

/-- What one `poll_next` returns. -/
inductive Given (ε : Type*) where
  | pending
  | chunk (bytes : Bytes)
  | error (failure : ε)
  | done

/-- One call of `poll_next`: what it returns, what it leaves, the writes it makes and the answers
it has not asked for. -/
structure Poll (ε : Type*) where
  given : Given ε
  recording : Recording
  ops : List StoreOp
  answers : List (Polled ε)

/-- Several calls. -/
structure Polls (ε : Type*) where
  given : List (Given ε)
  recording : Recording
  ops : List StoreOp
  answers : List (Polled ε)

variable {ε : Type*}

/-- What the caller is to be given of an answer. -/
def Polled.given : Polled ε → Option (Given ε)
  | .pending => some .pending
  | .data chunk => some (.chunk chunk)
  | .trailers => none
  | .error failure => some (.error failure)
  | .done => some .done

namespace Recording

/-- `Recording::poll_next`; there is no result if the answers end inside the loop. -/
def pollNext : Recording → List (Polled ε) → Option (Poll ε)
  | _, [] => none
  | recording, .trailers :: answers => pollNext recording answers
  | recording, .pending :: answers => some ⟨.pending, recording, [], answers⟩
  | recording, .data chunk :: answers =>
    let (recording, ops) := recording.poll (.data chunk)
    some ⟨.chunk chunk, recording, ops, answers⟩
  | recording, .error failure :: answers =>
    let (recording, ops) := recording.poll .error
    some ⟨.error failure, recording, ops, answers⟩
  | recording, .done :: answers =>
    let (recording, ops) := recording.poll .done
    some ⟨.done, recording, ops, answers⟩

/-- A caller that polls `n` times, or until the answers end. -/
def polls : Nat → Recording → List (Polled ε) → Polls ε
  | 0, recording, answers => ⟨[], recording, [], answers⟩
  | n + 1, recording, answers =>
    match recording.pollNext answers with
    | none => ⟨[], recording, [], []⟩
    | some poll =>
      let later := polls n poll.recording poll.answers
      ⟨poll.given :: later.given, later.recording, poll.ops ++ later.ops, later.answers⟩

/-- The recording after it has given something, and the writes it makes. -/
def give (recording : Recording) : Given ε → Recording × List StoreOp
  | .pending => (recording, [])
  | .chunk bytes => recording.poll (.data bytes)
  | .error _ => recording.poll .error
  | .done => recording.poll .done

/-- The writes made while all this is given. -/
def writes : Recording → List (Given ε) → List StoreOp
  | _, [] => []
  | recording, given :: later => (recording.give given).2 ++ writes (recording.give given).1 later

/-- **One poll gives the first answer that is not trailers.** -/
theorem pollNext_cases (recording : Recording) (answers : List (Polled ε)) :
    (recording.pollNext answers = none ∧ answers.filterMap Polled.given = []) ∨
      ∃ given rest, recording.pollNext answers =
          some ⟨given, (recording.give given).1, (recording.give given).2, rest⟩ ∧
        answers.filterMap Polled.given = given :: rest.filterMap Polled.given := by
  induction answers with
  | nil => exact Or.inl ⟨rfl, rfl⟩
  | cons answer answers ih =>
    cases answer with
    | trailers => exact ih
    | pending => exact Or.inr ⟨.pending, answers, rfl, rfl⟩
    | data chunk => exact Or.inr ⟨.chunk chunk, answers, rfl, rfl⟩
    | error failure => exact Or.inr ⟨.error failure, answers, rfl, rfl⟩
    | done => exact Or.inr ⟨.done, answers, rfl, rfl⟩

/-- **The caller is given what it would be given without the recording.** -/
theorem given_polls (n : Nat) (recording : Recording) (answers : List (Polled ε)) :
    (recording.polls n answers).given = (answers.filterMap Polled.given).take n := by
  induction n generalizing recording answers with
  | zero => simp [polls]
  | succ n ih =>
    rcases recording.pollNext_cases answers with ⟨hpoll, hgiven⟩ | ⟨given, rest, hpoll, hgiven⟩
    · simp [polls, hpoll, hgiven]
    · simp [polls, hpoll, hgiven, ih]

theorem ops_polls (n : Nat) (recording : Recording) (answers : List (Polled ε)) :
    (recording.polls n answers).ops = recording.writes (recording.polls n answers).given := by
  induction n generalizing recording answers with
  | zero => rfl
  | succ n ih =>
    rcases recording.pollNext_cases answers with ⟨hpoll, -⟩ | ⟨given, rest, hpoll, -⟩
    · simp [polls, hpoll, writes]
    · simp [polls, hpoll, writes, ih]

/-! ## What is written -/

/-- The chunks up to the end, if it is reached and there is no error before it. -/
def chunksToEnd : List (Given ε) → Option (List Bytes)
  | [] => none
  | .pending :: given => chunksToEnd given
  | .chunk bytes :: given => (chunksToEnd given).map (bytes :: ·)
  | .error _ :: _ => none
  | .done :: _ => some []

/-- The write that a commit with some bytes buffered comes to. -/
def written (commit : Commit) (buffered : Bytes) (given : List (Given ε)) : Option StoreOp :=
  (chunksToEnd given).bind fun chunks =>
    let body := buffered ++ chunks.flatten
    if body.length ≤ commit.limit ∧ declaresItsLength commit.headers body.length then
      some (.put commit.key (commit.entry body))
    else none

theorem writes_of_no_commit (buffered : Bytes) (given : List (Given ε)) :
    writes ⟨buffered, none⟩ given = [] := by
  induction given with
  | nil => rfl
  | cons given later ih =>
    have hgive : give ⟨buffered, none⟩ given = (⟨buffered, none⟩, []) := by
      cases given <;> simp [give, poll]
    simp [writes, hgive, ih]

/-- A chunk moves from what is still to come into the buffer. -/
theorem written_chunk (commit : Commit) (buffered bytes : Bytes) (later : List (Given ε)) :
    written commit buffered (.chunk bytes :: later) = written commit (buffered ++ bytes) later := by
  simp only [written, chunksToEnd, Option.bind_map]
  simp [List.append_assoc]

theorem written_eq_none {commit : Commit} {buffered : Bytes} (given : List (Given ε))
    (hlimit : commit.limit < buffered.length) : written commit buffered given = none := by
  rw [written, Option.bind_eq_none_iff]
  intro chunks _
  apply if_neg
  intro hfits
  have hle := hfits.1
  rw [List.length_append] at hle
  omega

/-- **The writes are a function of what the caller has been given.** -/
theorem writes_eq (commit : Commit) (buffered : Bytes) (given : List (Given ε))
    (hfits : buffered.length ≤ commit.limit) :
    writes ⟨buffered, some commit⟩ given = (written commit buffered given).toList := by
  induction given generalizing buffered with
  | nil => rfl
  | cons given later ih =>
    cases given with
    | pending => exact ih buffered hfits
    | chunk bytes =>
      rw [written_chunk]
      by_cases hlimit : commit.limit < buffered.length + bytes.length
      · have hgive : give ⟨buffered, some commit⟩ (.chunk bytes : Given ε) =
            (⟨[], none⟩, []) := by
          simp [give, poll, hlimit]
        rw [written_eq_none later (by simpa using hlimit), writes, hgive, writes_of_no_commit]
        rfl
      · have hgive : give ⟨buffered, some commit⟩ (.chunk bytes : Given ε) =
            (⟨buffered ++ bytes, some commit⟩, []) := by
          simp [give, poll, hlimit]
        rw [← ih (buffered ++ bytes) (by simpa using hlimit), writes, hgive]
        rfl
    | error failure =>
      have hgive : give ⟨buffered, some commit⟩ (.error failure) = (⟨buffered, none⟩, []) := rfl
      rw [writes, hgive, writes_of_no_commit]
      rfl
    | done =>
      by_cases hlength : declaresItsLength commit.headers buffered.length
      · have hgive : give ⟨buffered, some commit⟩ (.done : Given ε) =
            (⟨[], none⟩, [.put commit.key (commit.entry buffered)]) := by
          simp [give, poll, hlength]
        rw [writes, hgive, writes_of_no_commit]
        simp [written, chunksToEnd, hfits, hlength]
      · have hgive : give ⟨buffered, some commit⟩ (.done : Given ε) = (⟨[], none⟩, []) := by
          simp [give, poll, hlength]
        rw [writes, hgive, writes_of_no_commit]
        simp [written, chunksToEnd, hlength]

/-- What a caller that polls a recorded body gets, and what is written meanwhile. -/
structure Exact (commit : Commit) (n : Nat) (answers : List (Polled ε)) (polls : Polls ε) :
    Prop where
  given : polls.given = (answers.filterMap Polled.given).take n
  once : polls.ops.length ≤ 1
  ops : ∀ op, op ∈ polls.ops ↔ ∃ chunks, chunksToEnd polls.given = some chunks ∧
    chunks.flatten.length ≤ commit.limit ∧
    declaresItsLength commit.headers chunks.flatten.length ∧
    op = .put commit.key (commit.entry chunks.flatten)

theorem exact_polls (commit : Commit) (n : Nat) (answers : List (Polled ε)) :
    Exact commit n answers (polls n ⟨[], some commit⟩ answers) := by
  have hops : (polls n ⟨[], some commit⟩ answers).ops =
      (written commit [] (polls n ⟨[], some commit⟩ answers).given).toList := by
    rw [ops_polls]
    exact writes_eq commit [] _ (Nat.zero_le _)
  refine ⟨given_polls _ _ _, ?_, fun op => ?_⟩
  · rw [hops]
    exact Option.length_toList_le
  · rw [hops, Option.mem_toList, written, Option.bind_eq_some_iff]
    apply exists_congr
    intro chunks
    simp only [List.nil_append, Option.ite_none_right_eq_some, Option.some.injEq, and_assoc]
    rw [@eq_comm _ op]

end Recording

/-! ## What is stored keeps its length -/

/-- The entry has no `Content-Length`, or one that is the length of its body. -/
def CacheEntry.Agrees (entry : CacheEntry) : Prop :=
  declaresItsLength entry.headers entry.body.length = true

/-- **A `304` leaves the `Content-Length` alone.** -/
theorem CacheEntry.Agrees.refreshed {entry : CacheEntry} (h : entry.Agrees)
    (notModified : HeaderMap) (requestedAt receivedAt : SystemTime) :
    (entry.refreshed notModified requestedAt receivedAt).Agrees := by
  have hsame : HeaderMap.get (entry.refreshed notModified requestedAt receivedAt).headers
      .contentLength = HeaderMap.get entry.headers .contentLength := by
    rw [HeaderMap.get, HeaderMap.get, entry.getAll_refreshed, if_neg (by simp [replaces])]
  have hbody : (entry.refreshed notModified requestedAt receivedAt).body = entry.body := rfl
  rw [Agrees, declaresItsLength, hsame, hbody]
  exact h

theorem agrees_of_poll {recording : Recording} {frame : Frame} {key : CacheKey} {entry : CacheEntry}
    (h : .put key entry ∈ (recording.poll frame).2) : entry.Agrees := by
  obtain ⟨rfl, commit, hcommit, rfl, rfl⟩ := put_of_recording h
  by_cases hlength : declaresItsLength commit.headers recording.buffered.length
  · exact hlength
  · simp [Recording.poll, hcommit, hlength] at h

/-- An entry that the exchange holds for a revalidation agrees. -/
def Exchange.HoldsAgreeing (x : Exchange) : Prop :=
  ∀ state entry, x.phase = .pending (.store state) → state.revalidating = some entry → entry.Agrees

namespace World

/-- All that the cache has in hand agrees. -/
structure Agrees (env : Env) (w : World) : Prop where
  stored : ∀ key, ∀ entry ∈ w.cache.variantsAt env key, entry.Agrees
  held : ∀ x ∈ w.exchanges, x.HoldsAgreeing

variable {env : Env} {w : World}

theorem Agrees.put {call : Call} {key : CacheKey} {entry : CacheEntry} (hw : w.Agrees env)
    (h : .put key entry ∈ w.ops env call) : entry.Agrees := by
  cases puts_of_ops h with
  | refreshed hx hfound => exact (hw.held _ hx _ _ rfl hfound).refreshed _ _ _
  | recorded hx hcommit =>
    simp only [ops] at h
    split at h
    · rename_i body _
      cases body with
      | incoming length => cases h
      | fixed bytes => cases h
      | recording recording length => exact agrees_of_poll h
      | draining draining length => cases h
    · cases h

theorem Agrees.step (hw : w.Agrees env) (call : Call) : (w.step env call).Agrees env where
  stored := by
    intro key entry hentry
    rcases mem_variantsAt_step hentry with hold | hput
    · exact hw.stored key entry hold
    · exact hw.put hput
  held := by
    intro x hx
    rcases mem_exchanges_step hx with hold | htouched
    · exact hw.held x hold
    · cases htouched with
      | started request url now =>
        intro state entry hphase hentry
        have hstarted := (before_spec env w.cache request url now).pending state
          (Phase.pending.inj hphase)
        exact hw.stored _ _ (mem_of_select (hstarted.found entry hentry)).1
      | answered url response now hold => intro state entry hphase; cases hphase
      | read frame hold => intro state entry hphase; cases hphase

theorem Agrees.run (hw : w.Agrees env) (calls : List Call) : (w.run env calls).Agrees env := by
  induction calls generalizing w with
  | nil => exact hw
  | cons call calls ih => exact ih (hw.step call)

theorem Agrees.new (limits : MemoryLimits) (config : CacheConfig) :
    (World.new limits config).Agrees env where
  stored := by
    intro key entry hentry
    have hnone : (World.new limits config).cache.variantsAt env key = [] :=
      MemoryStore.variantsAt_withLimits limits
    rw [hnone] at hentry
    cases hentry
  held := fun x hx => by cases hx

end World

/-- **A recorded body is passed on as it is and stored whole or not at all**, and what is stored
keeps the length it declares. -/
theorem recording_exact (env : Env) (config : CacheConfig) (limits : MemoryLimits)
    {pending : Pending} {url : Url} {response : Response} {now : SystemTime}
    {recording : Recording} {length : Option Nat}
    (hbody : (HttpCache.after env config pending url response now).2.body =
      .recording recording length) (n : Nat) (answers : List (Polled ε)) :
    (∃ commit, recording = ⟨[], some commit⟩ ∧ commit.limit = config.maxBodyBytes ∧
      commit.headers = stripHopByHop response.headers ∧
      Recording.Exact commit n answers (recording.polls n answers)) ∧
    ∀ (calls : List Call) (key : CacheKey),
      ∀ entry ∈ ((World.new limits config).run env calls).cache.variantsAt env key,
        declaresItsLength entry.headers entry.body.length := by
  constructor
  · obtain ⟨state, names, rfl, rfl, -⟩ := recording_of_after hbody
    exact ⟨state.commit config names response now, rfl, rfl, rfl, Recording.exact_polls _ _ _⟩
  · intro calls key entry hentry
    exact ((World.Agrees.new limits config).run calls).stored key entry hentry

/-- A `200` of two bytes that says so. -/
def greeting : Response :=
  .ok [(.cacheControl, .fromStatic "max-age=60"), (.contentLength, .fromStatic "2")]

/-- The answers of a body that sends trailers and is not always ready. -/
def interrupted : List (Polled Unit) :=
  [.data [0x68], .pending, .data [0x69], .trailers, .done, .done]

/-- What is kept of it while its body is read. -/
def greetingCommit : Commit :=
  (PendingInner.start ⟨.get, []⟩ (.plain "https" "example.com" "/") 0).commit .default [] greeting 0

theorem recorded_greeting :
    (∃ commit, (⟨[], some greetingCommit⟩ : Recording) = ⟨[], some commit⟩ ∧
      commit.limit = CacheConfig.default.maxBodyBytes ∧
      commit.headers = stripHopByHop greeting.headers ∧
      Recording.Exact commit 4 interrupted
        (Recording.polls 4 ⟨[], some greetingCommit⟩ interrupted)) ∧
    (Recording.polls 4 ⟨[], some greetingCommit⟩ interrupted).ops =
      [.put greetingCommit.key (greetingCommit.entry [0x68, 0x69])] := by
  have hbody : (HttpCache.after .simple .default
      (.store (.start ⟨.get, []⟩ (.plain "https" "example.com" "/") 0))
      (.plain "https" "example.com" "/") greeting 0).2.body =
        .recording ⟨[], some greetingCommit⟩ (some 2) := rfl
  exact ⟨(recording_exact .simple .default .default hbody 4 interrupted).1, by decide +kernel⟩

end Chromulate.Cache
