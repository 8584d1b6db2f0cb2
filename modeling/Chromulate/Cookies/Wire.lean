import Chromulate.Cookies.Invariant

/-!
# The `Cookie` header on the wire

What a server reads back from the header `cookies_for` builds: the text split at every `;`, the
separator's space removed, each piece split at its first `=`.

**Faithfulness (`run_header_faithful`).** The pairs read back are the pairs of the cookies
served, in order. Both doors into the jar admit only pairs for which this works, so the fallback
branch of `cookies_for` is dead.

**Name prefixes (`run_prefix_promise`).** A server trims the names it reads. `Cookie::parse` has
trimmed them already, `import` has not, and checks the promise of the name as it stands. So the
promise of a name as read holds in every run whose imports keep it for the *trimmed* names;
`import_forges_prefix` shows the record that gets past the check otherwise.
-/

namespace Chromulate.Cookies

open PublicSuffix Text

/-! ## Reading a header back -/

/-- The separator is `; `: its space belongs to no pair. -/
def dropSeparatorSpace (piece : Str) : Str := (stripPrefix [' '] piece).getD piece

/-- The pieces of a `Cookie` header's text. -/
def headerPieces (text : Str) : List Str :=
  match text.splitOn ';' with
  | [] => []
  | first :: rest => first :: rest.map dropSeparatorSpace

/-- The pairs read from a `Cookie` header's text; `none` for a piece without `=`. -/
def readPairs (text : Str) : List (Option (Str × Str)) :=
  (headerPieces text).map (splitOnce '=')

def Entry.pair (entry : Entry) : Str × Str := (entry.cookie.name, entry.cookie.value)

def Entry.Representable (entry : Entry) : Prop :=
  isRepresentable entry.cookie.name entry.cookie.value

variable {e : Entry} {entries : List Entry}

theorem splitOnce_pairText (h : e.Representable) :
    splitOnce '=' (Jar.pairText e) = some e.pair := by
  obtain ⟨-, -, -, -, heq, -⟩ := isRepresentable_iff.mp h
  exact splitOnce_eq_some.mpr ⟨rfl, heq⟩

theorem semicolon_not_mem_pairText (h : e.Representable) : ';' ∉ Jar.pairText e := by
  obtain ⟨-, -, -, hname, -, hvalue⟩ := isRepresentable_iff.mp h
  simp [Jar.pairText, hname, hvalue]

theorem safe_joinedText (h : ∀ e ∈ entries, e.Representable) :
    ∀ c ∈ Jar.joinedText entries, isHeaderSafe c := by
  apply forall_mem_join
  · intro c hc
    have hsep : c = ';' ∨ c = ' ' := by simpa using hc
    rcases hsep with rfl | rfl <;> decide
  · intro l hl c hc
    obtain ⟨e, he, rfl⟩ := List.mem_map.mp hl
    obtain ⟨-, hname, hvalue, -⟩ := isRepresentable_iff.mp (h e he)
    rcases List.mem_append.mp hc with hc | hc
    · exact hname c hc
    · rcases List.mem_cons.mp hc with rfl | hc
      · decide
      · exact hvalue c hc

/-- The two characters of the separator are a `;` between pieces and a space at the front of each
piece but the first. -/
theorem join_separator (p : Str) (rest : List Str) :
    join "; ".toList (p :: rest) = join [';'] (p :: rest.map (' ' :: ·)) := by
  rw [join_cons, join_cons, List.flatMap_map]
  simp

theorem splitOn_joinedText {rest : List Entry} (h : ∀ e' ∈ e :: rest, e'.Representable) :
    (Jar.joinedText (e :: rest)).splitOn ';' =
      Jar.pairText e :: rest.map fun e' => ' ' :: Jar.pairText e' := by
  rw [Jar.joinedText, List.map_cons, join_separator, List.map_map]
  apply List.splitOn_intercalate
  · intro l hl
    rcases List.mem_cons.mp hl with rfl | hl
    · exact semicolon_not_mem_pairText (h e List.mem_cons_self)
    · obtain ⟨e', he', rfl⟩ := List.mem_map.mp hl
      have := semicolon_not_mem_pairText (h e' (List.mem_cons_of_mem _ he'))
      simpa using this
  · simp

/-- **The pieces of the joined text are the pairs' texts.** -/
theorem headerPieces_joinedText (hne : entries ≠ []) (h : ∀ e ∈ entries, e.Representable) :
    headerPieces (Jar.joinedText entries) = entries.map Jar.pairText := by
  cases entries with
  | nil => exact absurd rfl hne
  | cons e rest =>
    have hdrop : ∀ piece, dropSeparatorSpace (' ' :: piece) = piece := fun piece => rfl
    simp [headerPieces, splitOn_joinedText h, hdrop, Function.comp_def]

theorem readPairs_joinedText (hne : entries ≠ []) (h : ∀ e ∈ entries, e.Representable) :
    readPairs (Jar.joinedText entries) = entries.map fun e => some e.pair := by
  rw [readPairs, headerPieces_joinedText hne h, List.map_map]
  exact List.map_congr_left fun e he => splitOnce_pairText (h e he)

namespace Jar

variable {env : Env} {jar : Jar}

/-! ## Faithfulness -/

variable {context : CookieContext} {now : SystemTime} {origin : Origin} {url : Url}

theorem mem_served {requestPath : Str} {e : Entry} :
    e ∈ jar.served env origin requestPath context now ↔
      e ∈ (jar.entries.bucketAt (siteOf env.rules origin.host)).entries ∧
        eligible env origin requestPath context now e := by
  unfold served
  rw [(List.perm_insertionSort _ _).mem_iff, List.mem_filter]

instance : Std.Total servedBefore where
  total a b := by
    unfold servedBefore
    simp only [UInt64.le_iff_toNat_le]
    omega

instance : IsTrans Entry servedBefore where
  trans a b c := by
    unfold servedBefore
    simp only [UInt64.le_iff_toNat_le]
    omega

theorem pairwise_served (jar : Jar) (origin : Origin) (requestPath : Str)
    (context : CookieContext) (now : SystemTime) :
    (jar.served env origin requestPath context now).Pairwise servedBefore :=
  List.pairwise_insertionSort _ _

theorem cookiesFor_of_served (horigin : Origin.ofUrl url = some origin)
    (hserved : jar.served env origin url.path context now ≠ [])
    (hrep : ∀ e ∈ jar, e.Representable) :
    ∃ header,
      HeaderValue.fromStr (joinedText (jar.served env origin url.path context now)) = some header ∧
      header.toStr = some (joinedText (jar.served env origin url.path context now)) ∧
      (jar.cookiesFor env url context now).1 = some header := by
  have hsub : ∀ e ∈ jar.served env origin url.path context now, e.Representable :=
    fun e he => hrep e ⟨_, (mem_served.mp he).1⟩
  obtain ⟨header, hfrom, hto⟩ := HeaderValue.fromStr_of_safe (safe_joinedText hsub)
  refine ⟨header, hfrom, hto, ?_⟩
  unfold cookiesFor
  simp [horigin, hserved, headerOf, hfrom]

theorem cookiesFor_of_served_nil (horigin : Origin.ofUrl url = some origin)
    (hserved : jar.served env origin url.path context now = []) :
    (jar.cookiesFor env url context now).1 = none := by
  unfold cookiesFor
  simp [horigin, hserved]

theorem cookiesFor_eq_none_iff (horigin : Origin.ofUrl url = some origin)
    (hrep : ∀ e ∈ jar, e.Representable) :
    (jar.cookiesFor env url context now).1 = none ↔
      jar.served env origin url.path context now = [] := by
  constructor
  · intro hnone
    by_contra hne
    obtain ⟨header, -, -, hheader⟩ := cookiesFor_of_served horigin hne hrep
    rw [hheader] at hnone
    cases hnone
  · exact cookiesFor_of_served_nil horigin

/-- A header that is sent is the joined text of the cookies served. -/
theorem toStr_of_cookiesFor {header : HeaderValue} (horigin : Origin.ofUrl url = some origin)
    (hrep : ∀ e ∈ jar, e.Representable)
    (hheader : (jar.cookiesFor env url context now).1 = some header) :
    jar.served env origin url.path context now ≠ [] ∧
      header.toStr = some (joinedText (jar.served env origin url.path context now)) := by
  have hne : jar.served env origin url.path context now ≠ [] := by
    intro hnil
    rw [cookiesFor_of_served_nil horigin hnil] at hheader
    cases hheader
  obtain ⟨header', -, hto, hheader'⟩ := cookiesFor_of_served horigin hne hrep
  cases Option.some.inj (hheader.symm.trans hheader')
  exact ⟨hne, hto⟩

theorem run_representable (limits : JarLimits) (calls : List (Call × SystemTime)) :
    ∀ e ∈ (Jar.withLimits limits).run env calls, e.Representable := by
  apply forall_cookie_run (P := fun c => isRepresentable c.name c.value) limits
  · intro header host path secure now cookie hp
    exact isRepresentable_of_parse hp
  · intro snapshot now _ record _ hadm
    simp only [CookieRecord.isAdmitted, Bool.and_eq_true] at hadm
    exact hadm.1.2

/-- **The header is faithful.** In every jar a run reaches, when some cookie is served, the joined
text is a valid header value, it is what `cookies_for` returns, and reading it back gives the
pairs of the cookies served, in order. -/
theorem run_header_faithful (env : Env) (limits : JarLimits) (calls : List (Call × SystemTime))
    (url : Url) (context : CookieContext) (now : SystemTime) (origin : Origin)
    (horigin : Origin.ofUrl url = some origin)
    (hserved :
      ((Jar.withLimits limits).run env calls).served env origin url.path context now ≠ []) :
    let jar := (Jar.withLimits limits).run env calls
    let entries := jar.served env origin url.path context now
    ∃ header text, HeaderValue.fromStr (joinedText entries) = some header ∧
      (jar.cookiesFor env url context now).1 = some header ∧ header.toStr = some text ∧
      readPairs text = entries.map fun e => some (e.cookie.name, e.cookie.value) := by
  intro jar entries
  have hrep : ∀ e ∈ jar, e.Representable := run_representable limits calls
  obtain ⟨header, hfrom, hto, hheader⟩ := cookiesFor_of_served horigin hserved hrep
  refine ⟨header, joinedText entries, hfrom, hheader, hto, ?_⟩
  exact readPairs_joinedText hserved fun e he => hrep e ⟨_, (mem_served.mp he).1⟩

theorem header_faithful_session :
    let env : Env := ⟨[⟨[.label "com".toList], false⟩], .sorting⟩
    let url := Url.plain "https" "example.com" "/"
    let jar := (Jar.withLimits {}).run env
      [(.store url [.fromStatic "session=abc123", .fromStatic "theme=dark"], 0)]
    let entries := jar.served env ⟨"https".toList, "example.com".toList, 443⟩ url.path
      .conservativeDefault 0
    entries.length = 2 ∧ ∃ header text, HeaderValue.fromStr (joinedText entries) = some header ∧
      (jar.cookiesFor env url .conservativeDefault 0).1 = some header ∧
      header.toStr = some text ∧
      readPairs text = entries.map fun e => some (e.cookie.name, e.cookie.value) :=
  ⟨by decide, run_header_faithful _ {} _ _ _ _ _ (by decide) (by decide)⟩

/-! ## Name prefixes -/

end Jar

def isSpaceOrTab (c : Char) : Bool := c == ' ' || c == '\t'

/-- A name as a server reads it. -/
def wireName (name : Str) : Str := trimMatches isSpaceOrTab name

/-- The name of a piece of a header, as a server reads it. -/
def pieceName (piece : Str) : Str :=
  wireName (((splitOnce '=' piece).map Prod.fst).getD piece)

/-- The promise of a cookie's name as a server reads it. -/
def KeepsWirePromise (cookie : Cookie) : Prop :=
  keepsNamePrefixPromise (wireName cookie.name) cookie.secure cookie.hostOnly cookie.path

theorem startsWith_of_append {text rest front : Str}
    (h : startsWithIgnoreAsciiCase text front) :
    startsWithIgnoreAsciiCase (text ++ rest) front := by
  have hlow : toAsciiLowercase (text.take front.length) = toAsciiLowercase front := by
    simpa [startsWithIgnoreAsciiCase] using h
  have hlen : front.length ≤ text.length := by
    have := congrArg List.length hlow
    simp only [toAsciiLowercase, List.length_map, List.length_take] at this
    omega
  simpa [startsWithIgnoreAsciiCase, List.take_append_of_le_length hlen] using hlow

/-- A name without white space in front carries the prefix its trimmed form carries. -/
theorem startsWith_of_wireName {name front : Str}
    (hhead : ∀ c, name.head? = some c → isSpaceOrTab c = false)
    (h : startsWithIgnoreAsciiCase (wireName name) front) :
    startsWithIgnoreAsciiCase name front := by
  have hdrop : name.dropWhile isSpaceOrTab = name := by
    cases name with
    | nil => rfl
    | cons c cs => simp [hhead c rfl]
  obtain ⟨rest, hrest⟩ := List.rdropWhile_prefix isSpaceOrTab name
  rw [wireName, trimMatches, hdrop] at h
  rw [← hrest]
  exact startsWith_of_append h

theorem isSpaceOrTab_of_not_isWhitespace {c : Char} (h : isWhitespace c = false) :
    isSpaceOrTab c = false := by
  by_contra hc
  simp only [isSpaceOrTab, Bool.or_eq_false_iff, beq_eq_false_iff_ne, not_and_or, not_not] at hc
  rcases hc with rfl | rfl <;> revert h <;> decide

/-- `Cookie::parse` trims the name, so the promise it checks is the one a server reads. -/
theorem keepsWirePromise_of_parse {rules : List (Rule Str)} {header : HeaderValue}
    {host path : Str} {secure : Bool} {now : SystemTime} {cookie : Cookie}
    (h : Cookie.parse rules header host path secure now = some cookie) :
    KeepsWirePromise cookie := by
  have hpromise := keepsNamePrefixPromise_of_parse h
  have hhead : ∀ c, cookie.name.head? = some c → isSpaceOrTab c = false :=
    fun c hc => isSpaceOrTab_of_not_isWhitespace (head_name_of_parse h hc)
  unfold KeepsWirePromise
  rw [keepsNamePrefixPromise]
  split
  · rename_i hwire
    obtain ⟨hsec, hhost, hpath⟩ :=
      keepsNamePrefixPromise_host hpromise (startsWith_of_wireName hhead hwire)
    simp [hsec, hhost, hpath]
  · split
    · rename_i hwire
      exact keepsNamePrefixPromise_secure hpromise (startsWith_of_wireName hhead hwire)
    · rfl

/-- With or without the separator's space, a piece is read as its cookie's name. -/
theorem pieceName_of_pairText (h : e.Representable) {piece : Str}
    (hpiece : piece = Jar.pairText e ∨ piece = ' ' :: Jar.pairText e) :
    pieceName piece = wireName e.cookie.name := by
  rcases hpiece with rfl | rfl
  · simp [pieceName, splitOnce_pairText h, Entry.pair]
  · simp only [pieceName, splitOnce, splitOnce_pairText h]
    simp [Entry.pair, wireName, trimMatches, isSpaceOrTab]

theorem getElem?_splitOn_joinedText (hne : entries ≠ []) (h : ∀ e ∈ entries, e.Representable)
    {i : Nat} {piece : Str} (hpiece : ((Jar.joinedText entries).splitOn ';')[i]? = some piece) :
    ∃ e, entries[i]? = some e ∧
      (piece = Jar.pairText e ∨ piece = ' ' :: Jar.pairText e) := by
  cases entries with
  | nil => exact absurd rfl hne
  | cons e rest =>
    rw [splitOn_joinedText h] at hpiece
    cases i with
    | zero => exact ⟨e, rfl, Or.inl (Option.some.inj hpiece).symm⟩
    | succ i =>
      rw [List.getElem?_cons_succ, List.getElem?_map, Option.map_eq_some_iff] at hpiece
      obtain ⟨e', he', rfl⟩ := hpiece
      exact ⟨e', he', Or.inr rfl⟩

namespace Jar

variable {env : Env} {jar : Jar}

theorem domain_of_eligible {origin : Origin} {requestPath : Str} {context : CookieContext}
    {now : SystemTime} {e : Entry} (h : eligible env origin requestPath context now e)
    (hhost : e.cookie.hostOnly = true) : e.cookie.domain = origin.host := by
  simp only [eligible, Bool.and_eq_true] at h
  have happ := h.1.2
  simp only [Cookie.appliesTo, hhost, if_true] at happ
  split at happ
  · cases happ
  · simp only [Bool.and_eq_true, decide_eq_true_eq] at happ
    exact happ.1.symm

/-- **Name prefixes hold on the wire** in every run whose imports keep the promise of the trimmed
name: each piece of the header, at its own place, is one of the cookies served, and it is what
the name a server reads says. -/
theorem run_prefix_promise (env : Env) (limits : JarLimits) (calls : List (Call × SystemTime))
    (himport : ∀ snapshot now, (.importSnapshot snapshot, now) ∈ calls → ∀ record ∈ snapshot,
      record.isAdmitted now →
      keepsNamePrefixPromise (wireName record.name) record.secure record.hostOnly record.path)
    (url : Url) (context : CookieContext) (now : SystemTime) (origin : Origin)
    (horigin : Origin.ofUrl url = some origin) :
    let jar := (Jar.withLimits limits).run env calls
    ∀ header text, (jar.cookiesFor env url context now).1 = some header →
      header.toStr = some text → ∀ (i : Nat) piece, (text.splitOn ';')[i]? = some piece →
      ∃ e ∈ jar, (jar.served env origin url.path context now)[i]? = some e ∧
        (piece = pairText e ∨ piece = ' ' :: pairText e) ∧
        (startsWithIgnoreAsciiCase (pieceName piece) hostPrefix →
          e.cookie.secure = true ∧ e.cookie.hostOnly = true ∧ e.cookie.domain = origin.host ∧
            e.cookie.path = ['/']) ∧
        (startsWithIgnoreAsciiCase (pieceName piece) securePrefix → e.cookie.secure = true) := by
  intro jar header text hheader htext i piece hpiece
  have hrep : ∀ e ∈ jar, e.Representable := run_representable limits calls
  have hpromise : ∀ e ∈ jar, KeepsWirePromise e.cookie :=
    forall_cookie_run limits (fun _ _ _ _ _ _ hp => keepsWirePromise_of_parse hp) himport
  obtain ⟨hne, hto⟩ := toStr_of_cookiesFor horigin hrep hheader
  cases Option.some.inj (htext.symm.trans hto)
  have hsub : ∀ e ∈ jar.served env origin url.path context now, e.Representable :=
    fun e he => hrep e ⟨_, (mem_served.mp he).1⟩
  obtain ⟨e, he, hform⟩ := getElem?_splitOn_joinedText hne hsub hpiece
  obtain ⟨hbucket, helig⟩ := mem_served.mp (List.mem_of_getElem? he)
  have hname := pieceName_of_pairText (hrep e ⟨_, hbucket⟩) hform
  refine ⟨e, ⟨_, hbucket⟩, he, hform, fun hstarts => ?_, fun hstarts => ?_⟩
  · rw [hname] at hstarts
    obtain ⟨hsec, hhost, hpath⟩ := keepsNamePrefixPromise_host (hpromise e ⟨_, hbucket⟩) hstarts
    exact ⟨hsec, hhost, domain_of_eligible helig hhost, hpath⟩
  · rw [hname] at hstarts
    exact keepsNamePrefixPromise_secure (hpromise e ⟨_, hbucket⟩) hstarts

/-- A record that keeps the promise of its name. -/
def securedRecord : CookieRecord where
  name := "__Secure-a".toList
  value := "2".toList
  domain := "example.com".toList
  hostOnly := false
  path := "/".toList
  secure := true
  httpOnly := false
  sameSite := .lax
  partitioned := false
  expires := none
  creationSeq := 0
  lastAccessSeq := 0

theorem prefix_promise_session :
    let env : Env := ⟨[⟨[.label "com".toList], false⟩], .sorting⟩
    let url := Url.plain "https" "example.com" "/"
    let jar := (Jar.withLimits {}).run env
      [(.store url [.fromStatic "__Host-id=1; Secure; Path=/"], 0),
        (.importSnapshot [securedRecord], 0)]
    (jar.cookiesFor env url .conservativeDefault 0).1.bind HeaderValue.toStr =
        some "__Host-id=1; __Secure-a=2".toList ∧
      ∀ (i : Nat) piece, ("__Host-id=1; __Secure-a=2".toList.splitOn ';')[i]? = some piece →
        startsWithIgnoreAsciiCase (pieceName piece) securePrefix → ∃ e ∈ jar,
          (piece = pairText e ∨ piece = ' ' :: pairText e) ∧ e.cookie.secure = true := by
  intro env url jar
  have htext : (jar.cookiesFor env url .conservativeDefault 0).1.bind HeaderValue.toStr =
      some "__Host-id=1; __Secure-a=2".toList := by decide +kernel
  refine ⟨htext, fun i piece hpiece hstarts => ?_⟩
  obtain ⟨header, hheader, hto⟩ := Option.bind_eq_some_iff.mp htext
  obtain ⟨e, he, -, hform, -, hsecure⟩ := run_prefix_promise env {} _
    (fun snapshot now hmem record hrecord _ => by
      rcases List.mem_pair.mp hmem with hcall | hcall
      · cases hcall
      · cases hcall
        rw [List.mem_singleton.mp hrecord]
        decide) url .conservativeDefault 0 _ rfl header _ hheader hto i piece hpiece
  exact ⟨e, he, hform, hsecure hstarts⟩

/-- A record named ` __Host-id`, neither `Secure` nor host-only: the space hides the prefix from
`import`, and it is served over plaintext to a subdomain, where the name reads `__Host-id`. -/
def forgedRecord : CookieRecord :=
  { securedRecord with name := " __Host-id".toList, value := "1".toList, secure := false }

theorem import_forges_prefix :
    let env : Env := ⟨[⟨[.label "com".toList], false⟩], .sorting⟩
    let jar := (Jar.withLimits {}).run env [(.importSnapshot [forgedRecord], 0)]
    let header := (jar.cookiesFor env (Url.plain "http" "sub.example.com" "/")
      .conservativeDefault 0).1
    header.bind HeaderValue.toStr = some " __Host-id=1".toList ∧
      startsWithIgnoreAsciiCase (pieceName " __Host-id=1".toList) hostPrefix ∧
      ∀ e ∈ jar.entries.allEntries, e.cookie.secure = false ∧ e.cookie.hostOnly = false := by
  decide

end Jar

end Chromulate.Cookies
