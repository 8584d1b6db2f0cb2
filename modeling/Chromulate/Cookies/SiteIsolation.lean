import Chromulate.Cookies.Wire

/-!
# Sites

A cookie is filed under the registrable domain of its own domain and looked up under that of the
request's host. The acceptance test of `Cookie::parse` looks at neither: it asks whether the
domain is itself a public suffix and whether the host lies in it. With a public suffix *below* a
registrable domain the two sites differ, and then

* a response writes another site's bucket and its cookie is sent there (`nested_suffix_escapes`);
* a cookie that applies to a host is not found for it (`nested_suffix_hides`).

**Theorems.** `response_isolated_iff` and `lookup_exact_iff` say that this is the only way: each
property holds exactly when every domain involved shares the host's site (`SharesSite`), that
is, when no public suffix lies at or below it.
-/

namespace Chromulate.Cookies

open PublicSuffix

variable {rules : List (Rule Str)}

theorem siteOf_parse_iff {header : HeaderValue} {host path : Str} {secure : Bool}
    {now : SystemTime} {cookie : Cookie}
    (h : Cookie.parse rules header host path secure now = some cookie) :
    siteOf rules cookie.domain = siteOf rules host ↔
      ∀ d, domainAttribute header = some d → SharesSite rules host d := by
  rcases scope_of_parse h with ⟨-, hdomain, hattr⟩ | ⟨-, hattr, hne, hmatch, hpublic⟩
  · rw [hdomain]
    refine ⟨fun _ d hd => ?_, fun _ => rfl⟩
    exact Or.inl (hattr d hd).symm
  · rw [siteOf_eq_iff hmatch hne hpublic, hattr]
    simp

namespace Jar

variable {env : Env} {jar : Jar}

/-! ## What a response writes -/

variable {now : SystemTime} {site : Str} {e : Entry} {origin : Origin} {context : CookieContext}

theorem bucketAt_storeCookies {requestIsSecure : Bool} (cookies : List Cookie) (jar : Jar)
    (hother : ∀ cookie ∈ cookies, siteOf env.rules cookie.domain ≠ site) :
    (storeCookies env now requestIsSecure jar cookies).entries.bucketAt site =
      jar.entries.bucketAt site := by
  unfold storeCookies
  induction cookies generalizing jar with
  | nil => rfl
  | cons cookie rest ih =>
    rw [List.foldl_cons, ih _ fun c hc => hother c (List.mem_cons_of_mem _ hc),
      entries_storeCookie, Store.bucketAt_withSite_ne]
    exact (hother cookie List.mem_cons_self).symm

theorem bucketAt_enforceTotal_sub
    (he : e ∈ ((jar.enforceTotal now).entries.bucketAt site).entries) :
    e ∈ (jar.entries.bucketAt site).entries := by
  obtain ⟨i, hi, -⟩ := Store.mem_enforceTotal.mp he
  exact List.mem_of_getElem? hi

theorem bucketAt_tidySites (sites : List Str) (jar : Jar) (hother : site ∉ sites) :
    (sites.foldl (tidySite env now) jar).entries.bucketAt site = jar.entries.bucketAt site := by
  induction sites generalizing jar with
  | nil => rfl
  | cons s sites ih =>
    rw [List.foldl_cons, ih _ fun h => hother (List.mem_cons_of_mem _ h), entries_tidySite,
      Store.bucketAt_withSite_ne]
    rintro rfl
    exact hother List.mem_cons_self

theorem bucketAt_store_sub {url : Url} (horigin : Origin.ofUrl url = some origin)
    {headers : List HeaderValue} (hother : ∀ cookie ∈ accepted env origin url.path now headers,
      siteOf env.rules cookie.domain ≠ site)
    (he : e ∈ ((jar.store env url headers now).entries.bucketAt site).entries) :
    e ∈ (jar.entries.bucketAt site).entries := by
  unfold Jar.store at he
  simp only [horigin] at he
  have he := bucketAt_enforceTotal_sub he
  rw [bucketAt_tidySites, storeHeaders_fst, bucketAt_storeCookies _ _ hother] at he
  · exact he
  · intro hsite
    obtain ⟨cookie, hcookie, heq⟩ := mem_touched hsite
    exact hother cookie hcookie heq

theorem siteOf_of_mem_served (h : jar.WF env) {path : Str}
    (he : e ∈ jar.served env origin path context now) :
    siteOf env.rules e.cookie.domain = siteOf env.rules origin.host :=
  (Store.WF.fits_bucketAt h _).filed e (mem_served.mp he).1

/-- **A response stays within its site** exactly when every accepted `Domain` attribute shares
the host's site. Staying within means: every accepted cookie is filed under the host's site; no
other bucket is written (the purge of a full jar may take entries from it); and no accepted
cookie is ever sent, from any jar a run reaches, to a host of another site. -/
theorem response_isolated_iff (env : Env) (url : Url) (origin : Origin)
    (horigin : Origin.ofUrl url = some origin) (headers : List HeaderValue) (now : SystemTime) :
    (∀ header ∈ headers, ∀ cookie,
        Cookie.parse env.rules header origin.host url.path origin.isSecure now = some cookie →
        siteOf env.rules cookie.domain = siteOf env.rules origin.host ∧
        ∀ limits calls url' origin' context now', Origin.ofUrl url' = some origin' →
          ∀ e ∈ ((Jar.withLimits limits).run env calls).served env origin' url'.path context now',
            e.cookie = cookie → siteOf env.rules origin'.host = siteOf env.rules origin.host) ∧
      (∀ (jar : Jar) (site : Str), site ≠ siteOf env.rules origin.host →
        (storeHeaders env origin url.path now jar headers).1.entries.bucketAt site =
          jar.entries.bucketAt site ∧
        ∀ e ∈ ((jar.store env url headers now).entries.bucketAt site).entries,
          e ∈ (jar.entries.bucketAt site).entries) ↔
    ∀ header ∈ headers,
      (Cookie.parse env.rules header origin.host url.path origin.isSecure now).isSome →
      ∀ d, domainAttribute header = some d → SharesSite env.rules origin.host d := by
  constructor
  · rintro ⟨hsites, -⟩ header hheader hsome
    obtain ⟨cookie, hparse⟩ := Option.isSome_iff_exists.mp hsome
    exact (siteOf_parse_iff hparse).mp (hsites header hheader cookie hparse).1
  · intro hshare
    have hsite : ∀ header ∈ headers, ∀ cookie,
        Cookie.parse env.rules header origin.host url.path origin.isSecure now = some cookie →
        siteOf env.rules cookie.domain = siteOf env.rules origin.host := by
      intro header hheader cookie hparse
      exact (siteOf_parse_iff hparse).mpr (hshare header hheader (by rw [hparse]; rfl))
    refine ⟨fun header hheader cookie hparse => ⟨hsite header hheader cookie hparse, ?_⟩, ?_⟩
    · rintro limits calls url' origin' context now' - e he rfl
      rw [← siteOf_of_mem_served (wf_run limits calls) he]
      exact hsite header hheader _ hparse
    · intro jar site hne
      have hother : ∀ cookie ∈ accepted env origin url.path now headers,
          siteOf env.rules cookie.domain ≠ site := by
        intro cookie hcookie
        obtain ⟨header, hheader, hparse⟩ := mem_accepted.mp hcookie
        rw [hsite header hheader cookie hparse]
        exact hne.symm
      refine ⟨?_, fun e he => bucketAt_store_sub horigin hother he⟩
      rw [storeHeaders_fst, bucketAt_storeCookies _ _ hother]

theorem isolated_below_com :
    let rules : List (Rule Str) := [⟨[.label "com".toList], false⟩]
    let env : Env := ⟨rules, .sorting⟩
    ∀ cookie, Cookie.parse rules (.fromStatic "x=1; Domain=example.com") "www.example.com".toList
      "/".toList true 0 = some cookie →
      siteOf rules cookie.domain = siteOf env.rules "www.example.com".toList := by
  intro rules env cookie hparse
  have h := response_isolated_iff env (Url.plain "https" "www.example.com" "/")
    ⟨"https".toList, "www.example.com".toList, 443⟩ (by decide)
    [.fromStatic "x=1; Domain=example.com"] 0
  refine ((h.mpr ?_).1 _ (List.mem_singleton.mpr rfl) cookie hparse).1
  intro header hheader _ d hd
  rw [List.mem_singleton.mp hheader] at hd
  have hattr : domainAttribute (.fromStatic "x=1; Domain=example.com") =
      some "example.com".toList := by decide
  cases Option.some.inj (hattr.symm.trans hd)
  decide

/-- With a public suffix `b.example.com` below the registrable domain `example.com`, a host under
the suffix sets a cookie for all of `example.com`: it is filed there, and sent there. -/
theorem nested_suffix_escapes :
    let rules : List (Rule Str) := [⟨[.label "com".toList], false⟩,
      ⟨[.label "com".toList, .label "example".toList, .label "b".toList], false⟩]
    let env : Env := ⟨rules, .sorting⟩
    let jar := (Jar.withLimits {}).run env
      [(.store (Url.plain "https" "a.b.example.com" "/")
        [.fromStatic "x=1; Domain=example.com"], 0)]
    siteOf rules "a.b.example.com".toList = "a.b.example.com".toList ∧
      (Cookie.parse rules (.fromStatic "x=1; Domain=example.com") "a.b.example.com".toList
        "/".toList true 0).map (siteOf rules ·.domain) = some "example.com".toList ∧
      ((jar.cookiesFor env (Url.plain "https" "www.example.com" "/") .conservativeDefault
        0).1.bind HeaderValue.toStr) = some "x=1".toList ∧
      siteOf rules "www.example.com".toList = "example.com".toList := by
  decide

/-! ## What a lookup finds -/

theorem domainMatches_of_eligible {requestPath : Str}
    (h : eligible env origin requestPath context now e) (hhost : e.cookie.hostOnly = false) :
    domainMatches origin.host e.cookie.domain := by
  simp only [eligible, Bool.and_eq_true] at h
  have happ := h.1.2
  simp only [Cookie.appliesTo, hhost, Bool.false_eq_true, if_false] at happ
  split at happ
  · cases happ
  · simp only [Bool.and_eq_true] at happ
    exact happ.1

/-- What `Cookie::parse` makes sure of about a cookie with a `Domain` attribute. -/
def ScopedToDomain (rules : List (Rule Str)) (cookie : Cookie) : Prop :=
  cookie.hostOnly = false → cookie.domain ≠ [] ∧ isPublicSuffix rules cookie.domain = false

theorem scopedToDomain_of_parse {header : HeaderValue} {host path : Str} {secure : Bool}
    {cookie : Cookie} (h : Cookie.parse rules header host path secure now = some cookie) :
    ScopedToDomain rules cookie := by
  intro hhost
  rcases scope_of_parse h with ⟨htrue, -⟩ | ⟨-, -, hne, -, hpublic⟩
  · rw [hhost] at htrue
    cases htrue
  · exact ⟨hne, hpublic⟩

theorem siteOf_eligible_iff {requestPath : Str} (h : eligible env origin requestPath context now e)
    (hscope : ScopedToDomain env.rules e.cookie) :
    siteOf env.rules e.cookie.domain = siteOf env.rules origin.host ↔
      SharesSite env.rules origin.host e.cookie.domain := by
  cases hhost : e.cookie.hostOnly with
  | true =>
    rw [domain_of_eligible h hhost]
    simp [SharesSite]
  | false =>
    exact siteOf_eq_iff (domainMatches_of_eligible h hhost) (hscope hhost).1 (hscope hhost).2

/-- The run of a list of responses. -/
def runStores (env : Env) (limits : JarLimits)
    (responses : List (Url × List HeaderValue × SystemTime)) : Jar :=
  (Jar.withLimits limits).run env (responses.map fun r => (.store r.1 r.2.1, r.2.2))

theorem scopedToDomain_runStores (limits : JarLimits)
    (responses : List (Url × List HeaderValue × SystemTime)) :
    ∀ e ∈ runStores env limits responses, ScopedToDomain env.rules e.cookie := by
  apply forall_cookie_run (P := ScopedToDomain env.rules) limits
  · intro header host path secure now cookie hparse
    exact scopedToDomain_of_parse hparse
  · intro snapshot now hcall
    obtain ⟨r, -, hr⟩ := List.mem_map.mp hcall
    cases hr

/-- No eligible cookie stands in another bucket exactly when they all share the host's site. -/
theorem filter_otherEntries_eq_nil_iff (hwf : jar.WF env)
    (hscope : ∀ e ∈ jar, ScopedToDomain env.rules e.cookie) (origin : Origin) (requestPath : Str)
    (context : CookieContext) (now : SystemTime) :
    (jar.entries.otherEntries (siteOf env.rules origin.host)).filter
        (eligible env origin requestPath context now) = [] ↔
      ∀ e ∈ jar, eligible env origin requestPath context now e →
        SharesSite env.rules origin.host e.cookie.domain := by
  rw [List.filter_eq_nil_iff]
  constructor
  · intro hnone e he helig
    rw [← siteOf_eligible_iff helig (hscope e he)]
    by_contra hsite
    exact hnone e (Store.mem_otherEntries hsite ((Store.WF.mem_iff hwf).mp he)) helig
  · intro hshare e he helig
    obtain ⟨k, hk, he⟩ := Store.exists_of_mem_otherEntries he
    have hfiled := (Store.WF.fits_bucketAt hwf k).filed e he
    apply hk
    rw [← hfiled, siteOf_eligible_iff helig (hscope e ⟨k, he⟩)]
    exact hshare e ⟨k, he⟩ helig

/-- The eligible cookies of the jar are those served and those of the other buckets. -/
theorem filter_allEntries_perm (env : Env) (jar : Jar) (origin : Origin) (requestPath : Str)
    (context : CookieContext) (now : SystemTime) :
    (jar.entries.allEntries.filter (eligible env origin requestPath context now)).Perm
      (jar.served env origin requestPath context now ++
        (jar.entries.otherEntries (siteOf env.rules origin.host)).filter
          (eligible env origin requestPath context now)) := by
  have hsplit := (jar.entries.allEntries_perm (siteOf env.rules origin.host)).filter
    (eligible env origin requestPath context now)
  rw [List.filter_append] at hsplit
  exact hsplit.trans ((List.perm_insertionSort _ _).symm.append_right _)

/-- **The one-bucket lookup is exact** when and only when every eligible cookie of the jar shares
the host's site: the header lists the eligible cookies of all buckets, longer paths first and
then in order of creation, and there is no header exactly when there is no such cookie. -/
theorem lookup_exact_iff (env : Env) (limits : JarLimits)
    (responses : List (Url × List HeaderValue × SystemTime)) (url : Url) (context : CookieContext)
    (now : SystemTime) (origin : Origin) (horigin : Origin.ofUrl url = some origin) :
    let jar := runStores env limits responses
    let header := (jar.cookiesFor env url context now).1
    (∃ l : List Entry,
      l.Perm (jar.entries.allEntries.filter (eligible env origin url.path context now)) ∧
      l.Pairwise servedBefore ∧ (header = none ↔ l = []) ∧
      ∀ value, header = some value → ∃ text, value.toStr = some text ∧
        readPairs text = l.map fun e => some (e.cookie.name, e.cookie.value)) ↔
    ∀ e ∈ jar, eligible env origin url.path context now e →
      SharesSite env.rules origin.host e.cookie.domain := by
  intro jar header
  have hrep : ∀ e ∈ jar, e.Representable := run_representable limits _
  have hwf : jar.WF env := wf_run limits _
  have hscope : ∀ e ∈ jar, ScopedToDomain env.rules e.cookie :=
    scopedToDomain_runStores limits responses
  rw [← filter_otherEntries_eq_nil_iff hwf hscope]
  have hsplit := filter_allEntries_perm env jar origin url.path context now
  set served := jar.served env origin url.path context now
  set others := (jar.entries.otherEntries (siteOf env.rules origin.host)).filter
    (eligible env origin url.path context now)
  have hnil : header = none ↔ served = [] := cookiesFor_eq_none_iff horigin hrep
  have hread : ∀ value, header = some value → ∃ text, value.toStr = some text ∧
      readPairs text = served.map fun e => some (e.cookie.name, e.cookie.value) := by
    intro value hvalue
    obtain ⟨hne, hto⟩ := toStr_of_cookiesFor horigin hrep hvalue
    exact ⟨_, hto, readPairs_joinedText hne fun e he => hrep e ⟨_, (mem_served.mp he).1⟩⟩
  constructor
  · rintro ⟨l, hl, -, hnone, hpairs⟩
    -- The header has as many pieces as there are cookies served, so nothing is left over for `l`.
    have hlen : l.length = served.length := by
      cases hheader : header with
      | none => rw [hnone.mp hheader, hnil.mp hheader]
      | some value =>
        obtain ⟨text, htext, hserved⟩ := hread value hheader
        obtain ⟨text', htext', hl'⟩ := hpairs value hheader
        cases Option.some.inj (htext.symm.trans htext')
        simpa only [List.length_map] using congrArg List.length (hl'.symm.trans hserved)
    have hsum : l.length = served.length + others.length := by
      rw [(hl.trans hsplit).length_eq, List.length_append]
    exact List.eq_nil_of_length_eq_zero (by omega)
  · intro hothers
    rw [hothers, List.append_nil] at hsplit
    exact ⟨served, hsplit.symm, pairwise_served jar _ _ _ _, hnil, hread⟩

theorem lookup_exact_below_com :
    let env : Env := ⟨[⟨[.label "com".toList], false⟩], .sorting⟩
    let url := Url.plain "https" "www.example.com" "/"
    let origin : Origin := ⟨"https".toList, "www.example.com".toList, 443⟩
    let jar := runStores env {} [(url, [.fromStatic "x=1; Domain=example.com"], 0)]
    ∃ l : List Entry,
      l.Perm (jar.entries.allEntries.filter
        (eligible env origin url.path .conservativeDefault 0)) ∧
      l.Pairwise servedBefore ∧
      ((jar.cookiesFor env url .conservativeDefault 0).1 = none ↔ l = []) ∧
      ∀ value, (jar.cookiesFor env url .conservativeDefault 0).1 = some value →
        ∃ text, value.toStr = some text ∧
          readPairs text = l.map fun e => some (e.cookie.name, e.cookie.value) := by
  intro env url origin jar
  refine (lookup_exact_iff env {} _ url .conservativeDefault 0 origin (by decide)).mpr ?_
  intro e he _
  have hall : ∀ e ∈ jar.entries.allEntries,
      SharesSite env.rules origin.host e.cookie.domain := by decide
  exact hall e (Store.mem_allEntries.mpr he)

/-- Below a nested suffix, a cookie filed under `example.com` applies to the host that set it, and
is not found for it. -/
theorem nested_suffix_hides :
    let rules : List (Rule Str) := [⟨[.label "com".toList], false⟩,
      ⟨[.label "com".toList, .label "example".toList, .label "b".toList], false⟩]
    let env : Env := ⟨rules, .sorting⟩
    let url := Url.plain "https" "a.b.example.com" "/"
    let jar := runStores env {} [(url, [.fromStatic "x=1; Domain=example.com"], 0)]
    (jar.entries.allEntries.filter (eligible env ⟨"https".toList, "a.b.example.com".toList, 443⟩
        url.path .conservativeDefault 0)).map Entry.pair = [("x".toList, "1".toList)] ∧
      (jar.cookiesFor env url .conservativeDefault 0).1 = none := by
  decide

/-- The hosts a cookie is for: its own, or those of a domain that is no public suffix. -/
def InReach (rules : List (Rule Str)) (cookie : Cookie) (host : Str) : Prop :=
  if cookie.hostOnly then cookie.domain = host
  else domainMatches host cookie.domain ∧ isPublicSuffix rules cookie.domain = false

/-- A cookie is what a header of a response says, and the response's host is one it is for. -/
def SetBy (rules : List (Rule Str)) (url : Url) (headers : List HeaderValue) (now : SystemTime)
    (cookie : Cookie) : Prop :=
  ∃ setter ∈ Origin.ofUrl url, InReach rules cookie setter.host ∧ ∃ header ∈ headers,
    Cookie.parse rules header setter.host url.path setter.isSecure now = some cookie

/-- **Cookies do not cross domains.** Whatever a jar without imports has stored and evicted, a
cookie is sent only to a host it is for, and was set by a response of a host it is for. -/
theorem served_in_reach (env : Env) (limits : JarLimits) (calls : List (Call × SystemTime))
    (hcalls : ∀ snapshot now, (.importSnapshot snapshot, now) ∉ calls) (origin : Origin)
    (path : Str) (context : CookieContext) (now : SystemTime) (e : Entry)
    (he : e ∈ ((Jar.withLimits limits).run env calls).served env origin path context now) :
    InReach env.rules e.cookie origin.host ∧ ∃ url headers now, (.store url headers, now) ∈ calls ∧
      SetBy env.rules url headers now e.cookie := by
  have hset : ∀ call ∈ calls, Preserves env (fun jar => jar.WF env ∧ ∀ e ∈ jar,
      ∃ url headers now, (.store url headers, now) ∈ calls ∧
        SetBy env.rules url headers now e.cookie) call := by
    rintro ⟨call, now⟩ hcall
    refine ⟨fun _ _ hs h => ⟨hs.wf h.1, fun e he => h.2 e (hs.mem e he)⟩, ?_, ?_, ?_⟩
    · rintro jar url headers setter header cookie rfl hsetter hheader hparse h
      refine ⟨h.1.storeCookie _ _ _, fun e he => ?_⟩
      rcases mem_storeCookie h.1 he with he | rfl
      · exact h.2 e he
      · refine ⟨url, headers, now, hcall, setter, hsetter, ?_, header, hheader, hparse⟩
        rcases scope_of_parse hparse with ⟨hhost, hdomain, -⟩ | ⟨hhost, -, -, hmatch, hpublic⟩
        · simp [InReach, hhost, hdomain]
        · simp [InReach, hhost, hmatch, hpublic]
    · intro jar url context origin _ _ h
      refine ⟨h.1.recordAccess _ _ _ _, fun e he => ?_⟩
      obtain ⟨old, hold, hcookie, -⟩ := mem_recordAccess he
      exact hcookie ▸ h.2 old hold
    · rintro jar snapshot record rfl
      exact absurd hcall (hcalls snapshot now)
  obtain ⟨hmem, helig⟩ := mem_served.mp he
  have hsetter := (Preserves.run hset ⟨wf_withLimits limits,
    fun e he => absurd he (not_mem_withLimits limits e)⟩).2 e ⟨_, hmem⟩
  refine ⟨?_, hsetter⟩
  obtain ⟨_, _, _, _, _, _, hreach, -⟩ := hsetter
  cases hhost : e.cookie.hostOnly with
  | true => simpa [InReach, hhost] using domain_of_eligible helig hhost
  | false =>
    simp only [InReach, hhost, Bool.false_eq_true, if_false] at hreach ⊢
    exact ⟨domainMatches_of_eligible helig hhost, hreach.2⟩

/-- A cookie that one host sets for its domain is sent to another. -/
theorem sent_in_reach :
    let env : Env := ⟨[⟨[.label "com".toList], false⟩], .sorting⟩
    let headers := [HeaderValue.fromStatic "x=1; Domain=a.com"]
    ∃ cookie, InReach env.rules cookie "shop.a.com".toList ∧
      SetBy env.rules (.plain "https" "www.a.com" "/") headers 0 cookie := by
  intro env headers
  have hserved : ∃ e, e ∈ ((Jar.withLimits {}).run env
      [(.store (.plain "https" "www.a.com" "/") headers, 0)]).served env
      ⟨"https".toList, "shop.a.com".toList, 443⟩ ['/'] .conservativeDefault 0 :=
    List.exists_mem_of_length_pos (by decide)
  obtain ⟨e, he⟩ := hserved
  obtain ⟨hreach, url, headers', now, hcall, hset⟩ :=
    served_in_reach env {} _ (by simp) _ _ _ _ e he
  cases List.mem_singleton.mp hcall
  exact ⟨_, hreach, hset⟩

end Jar

end Chromulate.Cookies
