import Chromulate.Cookies.Invariant

/-!
# Secure cookies and plaintext responses

`apply_set_cookie` puts a `Secure` cookie "out of a plaintext response's reach entirely": one
check stands before both the overwrite and the deletion. Eviction does not pass through that
check, so a plaintext response that makes a bucket or the jar overflow can still push a `Secure`
cookie out (`plaintext_evicts_secure`).

**Theorem (`plaintext_keeps_secure`).** As long as no clean-up has anything to do
(`responsesQuiet`), no sequence of plaintext responses takes away or changes a `Secure` entry.
-/

namespace Chromulate.Cookies

open PublicSuffix

/-! ## The check in `apply_set_cookie` -/

/-- A plaintext `Set-Cookie` leaves every `Secure` entry of the bucket in place. -/
theorem Applied.mem_of_secure {bucket : Bucket} {cookie : Cookie} {now : SystemTime}
    {seqs : Counters} {result : Bucket × Counters} (hwf : bucket.WF)
    (ha : Applied bucket cookie now false seqs result) {e : Entry} (he : e ∈ bucket.entries)
    (hsec : e.cookie.secure) : e ∈ result.1.entries := by
  -- The entry reached is not `Secure`, so it is another one, of another identity.
  have hother : ∀ {old : Entry} {position : Nat}, bucket.get position = some old →
      (old.cookie.secure → false = true) → e.identity ≠ old.identity := by
    intro old position hold hreach hid
    have heq : e = old :=
      List.inj_on_of_nodup_map hwf.nodup he (List.mem_of_getElem? hold) hid
    exact absurd (hreach (heq ▸ hsec)) (by simp)
  cases ha with
  | ignored => exact he
  | deleted hold hid hreach => exact Bucket.mem_remove_of_ne hold he (hother hold hreach)
  | replaced hold hid hreach => exact Bucket.mem_replace_of_ne hold he (hother hold hreach)
  | inserted => exact List.mem_append_left _ he

/-! ## Clean-ups with nothing to do -/

namespace Jar

variable (env : Env)

/-- No trim within the response fires. -/
def cookiesQuiet (now : SystemTime) (requestIsSecure : Bool) : Jar → List Cookie → Bool
  | _, [] => true
  | jar, cookie :: rest =>
    let bucket := jar.entries.bucketAt (siteOf env.rules cookie.domain)
    decide ((applySetCookie bucket cookie now requestIsSecure jar.toCounters).1.len ≤
      jar.limits.holdDownAt) &&
    cookiesQuiet now requestIsSecure (jar.storeCookie env now requestIsSecure cookie) rest

/-- No trim of a touched bucket fires. -/
def sitesQuiet (now : SystemTime) : Jar → List Str → Bool
  | _, [] => true
  | jar, site :: rest =>
    decide ((jar.entries.bucketAt site).len ≤ jar.limits.perDomain) &&
    sitesQuiet now (jar.tidySite env now site) rest

/-- No clean-up of a `store` call fires, the purge of a full jar included. -/
def responseQuiet (jar : Jar) (url : Url) (setCookie : List HeaderValue) (now : SystemTime) :
    Bool :=
  match Origin.ofUrl url with
  | none => true
  | some origin =>
    let (stored, touched) := storeHeaders env origin url.path now jar setCookie
    let tidied := touched.foldl (tidySite env now) stored
    cookiesQuiet env now origin.isSecure jar (accepted env origin url.path now setCookie) &&
      sitesQuiet env now stored touched && decide (tidied.entries.total ≤ tidied.limits.total)

/-- A sequence of responses, one `store` call each. -/
def storeAll (jar : Jar) (responses : List (Url × List HeaderValue × SystemTime)) : Jar :=
  responses.foldl (fun jar r => jar.store env r.1 r.2.1 r.2.2) jar

/-- No clean-up fires in the whole sequence. -/
def responsesQuiet : Jar → List (Url × List HeaderValue × SystemTime) → Bool
  | _, [] => true
  | jar, r :: rest =>
    jar.responseQuiet env r.1 r.2.1 r.2.2 && responsesQuiet (jar.store env r.1 r.2.1 r.2.2) rest

variable {env} {jar : Jar} {now : SystemTime} {e : Entry}

theorem holdDown_of_le {bound keep : Nat} {b : Bucket} (h : b.len ≤ bound) :
    holdDown env now bound keep b = b := by
  rw [holdDown, if_neg (Nat.not_lt.mpr h)]

theorem enforceTotal_of_le (h : jar.entries.total ≤ jar.limits.total) :
    jar.enforceTotal now = jar := by
  rw [Jar.enforceTotal, Store.enforceTotal, if_pos h]

theorem mem_storeCookie_of_secure {cookie : Cookie} (hwf : jar.WF env) (he : e ∈ jar)
    (hsec : e.cookie.secure)
    (hquiet : (applySetCookie (jar.entries.bucketAt (siteOf env.rules cookie.domain)) cookie now
      false jar.toCounters).1.len ≤ jar.limits.holdDownAt) :
    e ∈ jar.storeCookie env now false cookie := by
  rw [mem_def, entries_storeCookie, Store.mem_withSite]
  obtain ⟨k, he⟩ := he
  by_cases hk : k = siteOf env.rules cookie.domain
  · subst hk
    left
    dsimp only
    rw [holdDown_of_le hquiet]
    have hbwf := (Store.WF.fits_bucketAt hwf (siteOf env.rules cookie.domain)).wf
    exact (applySetCookie_cases hbwf cookie now false jar.toCounters).mem_of_secure hbwf he hsec
  · exact Or.inr ⟨k, hk, he⟩

theorem mem_storeCookies_of_secure {cookies : List Cookie} (hwf : jar.WF env) (he : e ∈ jar)
    (hsec : e.cookie.secure) (hquiet : cookiesQuiet env now false jar cookies) :
    e ∈ storeCookies env now false jar cookies := by
  induction cookies generalizing jar with
  | nil => exact he
  | cons cookie rest ih =>
    rw [cookiesQuiet, Bool.and_eq_true, decide_eq_true_eq] at hquiet
    exact ih (hwf.storeCookie _ _ _) (mem_storeCookie_of_secure hwf he hsec hquiet.1) hquiet.2

theorem mem_tidySites_of_quiet {sites : List Str} (he : e ∈ jar)
    (hquiet : sitesQuiet env now jar sites) : e ∈ sites.foldl (tidySite env now) jar := by
  induction sites generalizing jar with
  | nil => exact he
  | cons site rest ih =>
    rw [sitesQuiet, Bool.and_eq_true, decide_eq_true_eq] at hquiet
    refine ih ?_ hquiet.2
    rw [mem_def, entries_tidySite, Store.mem_withSite, holdDown_of_le hquiet.1]
    obtain ⟨k, he⟩ := he
    by_cases hk : k = site
    · exact Or.inl (hk ▸ he)
    · exact Or.inr ⟨k, hk, he⟩

/-- **One plaintext response** that triggers no clean-up leaves every `Secure` entry as it is. -/
theorem mem_store_of_secure {url : Url} {headers : List HeaderValue} (hwf : jar.WF env)
    (hplain : ∀ origin, Origin.ofUrl url = some origin → origin.isSecure = false)
    (hquiet : jar.responseQuiet env url headers now) (he : e ∈ jar) (hsec : e.cookie.secure) :
    e ∈ jar.store env url headers now := by
  unfold responseQuiet at hquiet
  unfold Jar.store
  cases horigin : Origin.ofUrl url with
  | none => exact he
  | some origin =>
    simp only [horigin, Bool.and_eq_true, decide_eq_true_eq] at hquiet
    obtain ⟨⟨hcookies, hsites⟩, htotal⟩ := hquiet
    rw [hplain origin horigin] at hcookies
    have hstored : e ∈ (storeHeaders env origin url.path now jar headers).1 := by
      rw [storeHeaders_fst, hplain origin horigin]
      exact mem_storeCookies_of_secure hwf he hsec hcookies
    dsimp only
    rw [enforceTotal_of_le htotal]
    exact mem_tidySites_of_quiet hstored hsites

theorem mem_storeAll_of_secure (responses : List (Url × List HeaderValue × SystemTime))
    (hwf : jar.WF env)
    (hplain : ∀ r ∈ responses, ∀ origin, Origin.ofUrl r.1 = some origin →
      origin.isSecure = false)
    (hquiet : responsesQuiet env jar responses) (he : e ∈ jar) (hsec : e.cookie.secure) :
    e ∈ jar.storeAll env responses := by
  unfold storeAll
  induction responses generalizing jar with
  | nil => exact he
  | cons r rest ih =>
    rw [responsesQuiet, Bool.and_eq_true] at hquiet
    refine ih ((preserves_wf (.store r.1 r.2.1, r.2.2)).step hwf)
      (fun r' hr' => hplain r' (List.mem_cons_of_mem _ hr')) hquiet.2 ?_
    exact mem_store_of_secure hwf (hplain r List.mem_cons_self) hquiet.1 he hsec

/-- **Plaintext responses keep `Secure` entries** in every jar a run reaches, as long as they
trigger no clean-up: the very same entry, with its value, attributes and numbers, is there after
all of them. -/
theorem plaintext_keeps_secure (env : Env) (limits : JarLimits)
    (calls : List (Call × SystemTime)) (responses : List (Url × List HeaderValue × SystemTime))
    (hplain : ∀ r ∈ responses, ∀ origin, Origin.ofUrl r.1 = some origin →
      origin.isSecure = false)
    (hquiet : responsesQuiet env ((Jar.withLimits limits).run env calls) responses) :
    ∀ e ∈ (Jar.withLimits limits).run env calls, e.cookie.secure →
      e ∈ ((Jar.withLimits limits).run env calls).storeAll env responses :=
  fun _ he hsec => mem_storeAll_of_secure responses (wf_run limits calls) hplain hquiet he hsec

theorem plaintext_keeps_session :
    let env : Env := ⟨[⟨[.label "com".toList], false⟩], .sorting⟩
    let jar := (Jar.withLimits {}).run env
      [(.store (Url.plain "https" "example.com" "/") [.fromStatic "s=1; Secure"], 0)]
    ∀ e ∈ jar, e.cookie.secure → e ∈ jar.storeAll env
      [(Url.plain "http" "example.com" "/", [.fromStatic "s=2", .fromStatic "s=; Max-Age=0"], 1)] :=
  plaintext_keeps_secure _ {} _ _ (by decide) (by decide)

/-- In a bucket of one, a plaintext response evicts the `Secure` cookie by setting another. -/
theorem plaintext_evicts_secure :
    let env : Env := ⟨[⟨[.label "com".toList], false⟩], .sorting⟩
    let jar := (Jar.withLimits { perDomain := 1, total := 10 }).run env
      [(.store (Url.plain "https" "example.com" "/") [.fromStatic "s=1; Secure"], 0)]
    let after := jar.storeAll env [(Url.plain "http" "example.com" "/", [.fromStatic "x=1"], 0)]
    (jar.entries.allEntries.map fun e =>
        (e.cookie.name, e.cookie.secure, e.cookie.isExpired 0)) = [("s".toList, true, false)] ∧
      (Origin.ofUrl (Url.plain "http" "example.com" "/")).map Origin.isSecure = some false ∧
      after.entries.allEntries.map (·.cookie.name) = ["x".toList] := by
  decide

end Jar

end Chromulate.Cookies
