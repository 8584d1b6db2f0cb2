import Chromulate.Cookies.Wire

/-!
# Sequence numbers

Creation order and access order are kept by two counters. `store` and `cookies_for` draw from
them with a wrapping `fetch_add`; `import` raises them past the numbers of a snapshot with a
saturating addition. At the top of the range the two do not fit together: a record that carries
`u64::MAX` leaves the counter *at* the largest number in use, and the next draw wraps
(`wrapped_numbers_go_backwards`).

**Theorem (`run_advances`).** In every run that stays clear of the top (`runFits`: no admitted
record carries `u64::MAX`, and no counter stands there when a number is drawn), every call only
moves forward (`Advances`). The invariant is `Below`: every number in the jar is below its
counter.
-/

namespace Chromulate.Cookies

open PublicSuffix Select

/-! ## The counters -/

def u64Max : UInt64 := 18446744073709551615

theorem lt_succ_of_ne_max {n : UInt64} (h : n ≠ u64Max) : n < n + 1 := by
  have hne : n.toNat ≠ u64Max.toNat := fun heq => h (UInt64.toNat_inj.mp heq)
  have hmax : u64Max.toNat = 18446744073709551615 := rfl
  have hlt := n.toNat_lt
  rw [UInt64.lt_iff_toNat_lt, UInt64.toNat_add]
  have hone : (1 : UInt64).toNat = 1 := rfl
  omega

theorem saturatingSucc_of_ne_max {n : UInt64} (h : n ≠ u64Max) : n < saturatingSucc n := by
  have hlt := lt_succ_of_ne_max h
  unfold saturatingSucc
  split
  · rename_i hzero
    rw [hzero] at hlt
    exact absurd hlt (by simp)
  · exact hlt

/-- `fetch_max` does not lower a counter, and raises it to the number offered. -/
theorem le_fetchMax (a b : UInt64) : a ≤ max a b ∧ b ≤ max a b := by
  have hmax : max a b = if a ≤ b then b else a := rfl
  rw [hmax]
  split
  · rename_i hle
    exact ⟨hle, UInt64.le_refl b⟩
  · rename_i hlt
    exact ⟨UInt64.le_refl a, UInt64.le_of_lt (UInt64.not_le.mp hlt)⟩

/-- Neither counter is about to wrap. -/
def Counters.canDraw (seqs : Counters) : Bool :=
  seqs.nextCreationSeq ≠ u64Max && seqs.nextAccessSeq ≠ u64Max

/-- The entries' numbers are below the counters. -/
def Counters.Bound (seqs : Counters) (e : Entry) : Prop :=
  e.creationSeq < seqs.nextCreationSeq ∧ e.lastAccessSeq < seqs.nextAccessSeq

variable {seqs : Counters}

theorem Counters.Bound.mono {seqs' : Counters} {e : Entry} (h : seqs.Bound e)
    (hc : seqs.nextCreationSeq ≤ seqs'.nextCreationSeq)
    (ha : seqs.nextAccessSeq ≤ seqs'.nextAccessSeq) : seqs'.Bound e :=
  ⟨UInt64.lt_of_lt_of_le h.1 hc, UInt64.lt_of_lt_of_le h.2 ha⟩

theorem Counters.canDraw_iff :
    seqs.canDraw ↔ seqs.nextCreationSeq ≠ u64Max ∧ seqs.nextAccessSeq ≠ u64Max := by
  simp [canDraw]

theorem Applied.mem_of_ne {bucket : Bucket} {cookie : Cookie} {now : SystemTime}
    {requestIsSecure : Bool} {result : Bucket × Counters} {e : Entry}
    (ha : Applied bucket cookie now requestIsSecure seqs result) (he : e ∈ bucket.entries)
    (hne : e.identity ≠ identityOf cookie) : e ∈ result.1.entries := by
  cases ha with
  | ignored => exact he
  | deleted hold hid => exact Bucket.mem_remove_of_ne hold he (hid ▸ hne)
  | replaced hold hid => exact Bucket.mem_replace_of_ne hold he (hid ▸ hne)
  | inserted => exact List.mem_append_left _ he

/-- Whatever a header writes, the counters end up past every number in the bucket. -/
theorem Applied.bound {bucket : Bucket} {cookie : Cookie} {now : SystemTime}
    {requestIsSecure : Bool} {result : Bucket × Counters}
    (ha : Applied bucket cookie now requestIsSecure seqs result) (hfit : seqs.canDraw)
    (hbucket : ∀ e ∈ bucket.entries, seqs.Bound e) :
    seqs.nextCreationSeq ≤ result.2.nextCreationSeq ∧
      seqs.nextAccessSeq ≤ result.2.nextAccessSeq ∧ ∀ e ∈ result.1.entries, result.2.Bound e := by
  have hcreate := lt_succ_of_ne_max (Counters.canDraw_iff.mp hfit).1
  have haccess := lt_succ_of_ne_max (Counters.canDraw_iff.mp hfit).2
  cases ha with
  | ignored => exact ⟨UInt64.le_refl _, UInt64.le_refl _, hbucket⟩
  | deleted =>
    exact ⟨UInt64.le_refl _, UInt64.le_refl _, fun e he => hbucket e (Bucket.mem_remove he)⟩
  | @replaced position old hold =>
    have hle := UInt64.le_of_lt haccess
    refine ⟨UInt64.le_refl _, hle, fun e he => ?_⟩
    rcases Bucket.mem_replace he with he | rfl
    · exact (hbucket e he).mono (UInt64.le_refl _) hle
    · exact ⟨(hbucket old (List.mem_of_getElem? hold)).1, haccess⟩
  | inserted =>
    refine ⟨UInt64.le_of_lt hcreate, UInt64.le_of_lt haccess, fun e he => ?_⟩
    rcases List.mem_append.mp he with he | he
    · exact (hbucket e he).mono (UInt64.le_of_lt hcreate) (UInt64.le_of_lt haccess)
    · rw [List.mem_singleton.mp he]
      exact ⟨hcreate, haccess⟩

namespace Jar

variable (env : Env)

/-- No counter wraps while the cookies of a response are stored. -/
def cookiesFit (now : SystemTime) (requestIsSecure : Bool) : Jar → List Cookie → Bool
  | _, [] => true
  | jar, cookie :: rest =>
    jar.canDraw && cookiesFit now requestIsSecure
      (jar.storeCookie env now requestIsSecure cookie) rest

/-- A call stays clear of the top of the range. -/
def callFits (jar : Jar) (call : Call × SystemTime) : Bool :=
  match call.1 with
  | .store url setCookie =>
    match Origin.ofUrl url with
    | none => true
    | some origin =>
      cookiesFit env call.2 origin.isSecure jar
        (accepted env origin url.path call.2 setCookie)
  | .cookiesFor _ _ => jar.nextAccessSeq ≠ u64Max
  | .importSnapshot snapshot =>
    snapshot.all fun record => !record.isAdmitted call.2 ||
      (record.creationSeq ≠ u64Max && record.lastAccessSeq ≠ u64Max)

/-- Every call of a run stays clear of the top of the range. -/
def runFits : Jar → List (Call × SystemTime) → Bool
  | _, [] => true
  | jar, call :: rest => jar.callFits env call && runFits (jar.step env call) rest

variable {env} {jar : Jar}

theorem runFits_append {calls rest : List (Call × SystemTime)} :
    runFits env jar (calls ++ rest) =
      (runFits env jar calls && runFits env (jar.run env calls) rest) := by
  induction calls generalizing jar with
  | nil => rfl
  | cons call calls ih =>
    rw [List.cons_append, runFits, runFits, ih, Bool.and_assoc]
    rfl

/-! ## What a header writes -/

variable (env) in
/-- `e` is the entry that `apply_set_cookie` writes for `cookie`. -/
def Writes (jar : Jar) (now : SystemTime) (requestIsSecure : Bool) (cookie : Cookie) (e : Entry) :
    Prop :=
  let bucket := jar.entries.bucketAt (siteOf env.rules cookie.domain)
  e ∈ (applySetCookie bucket cookie now requestIsSecure jar.toCounters).1.entries ∧
    e ∉ bucket.entries

/-- Every number in the jar is below its counter. -/
def Below (jar : Jar) : Prop := ∀ e ∈ jar, jar.toCounters.Bound e

variable {now : SystemTime} {requestIsSecure : Bool} {cookie : Cookie} {e : Entry}

/-- An entry written carries the cookie, is live, has the access number just drawn, and the
creation number just drawn or that of the entry it replaces. -/
theorem Writes.spec (h : jar.WF env) (hw : Writes env jar now requestIsSecure cookie e) :
    e.cookie = cookie ∧ cookie.isExpired now = false ∧ e.lastAccessSeq = jar.nextAccessSeq ∧
      ((∀ old ∈ jar, old.identity ≠ e.identity) ∧ e.creationSeq = jar.nextCreationSeq ∨
        ∃ old ∈ jar, old.identity = e.identity ∧ e.creationSeq = old.creationSeq) := by
  obtain ⟨hmem, hnew⟩ := hw
  have hfits := Store.WF.fits_bucketAt h (siteOf env.rules cookie.domain)
  have hcases := applySetCookie_cases hfits.wf cookie now requestIsSecure jar.toCounters
  generalize applySetCookie _ cookie now requestIsSecure jar.toCounters = result at hcases hmem
  cases hcases with
  | ignored => exact absurd hmem hnew
  | deleted => exact absurd (Bucket.mem_remove hmem) hnew
  | replaced hold hid hreach hlive =>
    cases (Bucket.mem_replace hmem).resolve_left hnew
    exact ⟨rfl, hlive, rfl, Or.inr ⟨_, ⟨_, List.mem_of_getElem? hold⟩, hid, rfl⟩⟩
  | inserted hfresh hlive =>
    cases List.mem_singleton.mp ((List.mem_append.mp hmem).resolve_left hnew)
    refine ⟨rfl, hlive, rfl, Or.inl ⟨fun old hold hid => ?_, rfl⟩⟩
    -- An entry of this identity anywhere in the jar would stand in this bucket.
    have hdomain : old.cookie.domain = cookie.domain := congrArg (fun id => id.2.1) hid
    rw [mem_def, Store.WF.mem_iff h, hdomain] at hold
    exact hfresh old hold hid

theorem Writes.unique {e' : Entry} (h : jar.WF env)
    (hw : Writes env jar now requestIsSecure cookie e)
    (hw' : Writes env jar now requestIsSecure cookie e') : e = e' := by
  have hfits := Store.WF.fits_bucketAt h (siteOf env.rules cookie.domain)
  have hcases := applySetCookie_cases hfits.wf cookie now requestIsSecure jar.toCounters
  obtain ⟨hmem, hnew⟩ := hw
  obtain ⟨hmem', hnew'⟩ := hw'
  generalize applySetCookie _ cookie now requestIsSecure jar.toCounters = result
    at hcases hmem hmem'
  cases hcases with
  | ignored => exact absurd hmem hnew
  | deleted => exact absurd (Bucket.mem_remove hmem) hnew
  | replaced =>
    rw [(Bucket.mem_replace hmem).resolve_left hnew,
      (Bucket.mem_replace hmem').resolve_left hnew']
  | inserted =>
    rw [List.mem_singleton.mp ((List.mem_append.mp hmem).resolve_left hnew),
      List.mem_singleton.mp ((List.mem_append.mp hmem').resolve_left hnew')]

theorem mem_storeCookie_or_writes (he : e ∈ jar.storeCookie env now requestIsSecure cookie) :
    e ∈ jar ∨ Writes env jar now requestIsSecure cookie e := by
  rw [mem_def, entries_storeCookie, Store.mem_withSite] at he
  rcases he with he | ⟨k, -, he⟩
  · by_cases hold : e ∈ (jar.entries.bucketAt (siteOf env.rules cookie.domain)).entries
    · exact Or.inl ⟨_, hold⟩
    · exact Or.inr ⟨mem_of_mem_holdDown he, hold⟩
  · exact Or.inl ⟨k, he⟩

theorem toCounters_storeCookie (jar : Jar) (now : SystemTime) (requestIsSecure : Bool)
    (cookie : Cookie) :
    (jar.storeCookie env now requestIsSecure cookie).toCounters =
      (applySetCookie (jar.entries.bucketAt (siteOf env.rules cookie.domain)) cookie now
        requestIsSecure jar.toCounters).2 := rfl

/-! ## Every number stays below its counter -/

variable {jar' : Jar}

theorem Below.shrinks (h : Below jar) (hs : Shrinks env jar jar') : Below jar' := by
  intro e he
  rw [hs.counters]
  exact h e (hs.mem e he)

theorem Below.storeCookie (h : Below jar) (hwf : jar.WF env) (hfit : jar.canDraw) :
    Below (jar.storeCookie env now requestIsSecure cookie) := by
  have hfits := Store.WF.fits_bucketAt hwf (siteOf env.rules cookie.domain)
  obtain ⟨hc, ha, hnew⟩ :=
    (applySetCookie_cases hfits.wf cookie now requestIsSecure jar.toCounters).bound hfit
      fun e he => h e ⟨_, he⟩
  intro e he
  rw [toCounters_storeCookie]
  rw [mem_def, entries_storeCookie, Store.mem_withSite] at he
  rcases he with he | ⟨k, -, he⟩
  · exact hnew e (mem_of_mem_holdDown he)
  · exact (h e ⟨k, he⟩).mono hc ha

theorem Below.recordAccess (h : Below jar) (hfit : jar.nextAccessSeq ≠ u64Max) (origin : Origin)
    (requestPath : Str) (context : CookieContext) (now : SystemTime) :
    Below (jar.recordAccess env origin requestPath context now) := by
  have haccess := lt_succ_of_ne_max hfit
  intro e he
  obtain ⟨old, hold, -, hcreation, hseq⟩ := mem_recordAccess he
  refine ⟨hcreation ▸ (h old hold).1, ?_⟩
  rcases hseq with hseq | hseq
  · exact hseq ▸ UInt64.lt_trans (h old hold).2 haccess
  · exact hseq ▸ haccess

theorem Below.importRecord (h : Below jar) {record : CookieRecord}
    (hfit : record.isAdmitted now →
      record.creationSeq ≠ u64Max ∧ record.lastAccessSeq ≠ u64Max) :
    Below (jar.importRecord env now record) := by
  by_cases hadm : record.isAdmitted now
  · have hcreate := saturatingSucc_of_ne_max (hfit hadm).1
    have haccess := saturatingSucc_of_ne_max (hfit hadm).2
    intro e he
    have hcounters : (jar.importRecord env now record).toCounters =
        ⟨max jar.nextCreationSeq (saturatingSucc record.creationSeq),
          max jar.nextAccessSeq (saturatingSucc record.lastAccessSeq)⟩ := by
      rw [Jar.importRecord, if_pos hadm]
    rw [hcounters]
    rcases mem_importRecord hadm he with he | rfl
    · exact (h e he).mono (le_fetchMax _ _).1 (le_fetchMax _ _).1
    · exact ⟨UInt64.lt_of_lt_of_le hcreate (le_fetchMax _ _).2,
        UInt64.lt_of_lt_of_le haccess (le_fetchMax _ _).2⟩
  · rw [Jar.importRecord, if_neg hadm]
    exact h

theorem below_storeCookies {cookies : List Cookie} (h : Below jar) (hwf : jar.WF env)
    (hfit : cookiesFit env now requestIsSecure jar cookies) :
    Below (storeCookies env now requestIsSecure jar cookies) ∧
      (storeCookies env now requestIsSecure jar cookies).WF env := by
  induction cookies generalizing jar with
  | nil => exact ⟨h, hwf⟩
  | cons cookie rest ih =>
    rw [cookiesFit, Bool.and_eq_true] at hfit
    exact ih (h.storeCookie hwf hfit.1) (hwf.storeCookie _ _ _) hfit.2

theorem cookiesFit_front {front back : List Cookie}
    (h : cookiesFit env now requestIsSecure jar (front ++ back)) :
    cookiesFit env now requestIsSecure jar front ∧
      cookiesFit env now requestIsSecure
        (storeCookies env now requestIsSecure jar front) back := by
  induction front generalizing jar with
  | nil => exact ⟨rfl, h⟩
  | cons cookie front ih =>
    rw [List.cons_append, cookiesFit, Bool.and_eq_true] at h
    obtain ⟨hfront, hback⟩ := ih h.2
    exact ⟨by rw [cookiesFit, h.1, hfront]; rfl, hback⟩

theorem shrinks_tidySites (now : SystemTime) (jar : Jar) (sites : List Str) :
    Shrinks env jar (sites.foldl (tidySite env now) jar) := by
  induction sites generalizing jar with
  | nil => exact ⟨fun h => h, rfl, rfl, fun e he => he⟩
  | cons site sites ih => exact (shrinks_tidySite now jar site).trans (ih _)

theorem Below.step {call : Call × SystemTime} (h : Below jar) (hwf : jar.WF env)
    (hfit : jar.callFits env call) : Below (jar.step env call) := by
  obtain ⟨call, now⟩ := call
  cases call with
  | store url headers =>
    show Below (jar.store env url headers now)
    unfold Jar.store
    cases horigin : Origin.ofUrl url with
    | none => exact h
    | some origin =>
      simp only [callFits, horigin] at hfit
      dsimp only
      rw [storeHeaders_fst]
      have hstored := (below_storeCookies h hwf hfit).1
      exact hstored.shrinks ((shrinks_tidySites now _ _).trans (shrinks_enforceTotal now _))
  | cookiesFor url context =>
    show Below (jar.cookiesFor env url context now).2
    unfold Jar.cookiesFor
    split
    · exact h
    · dsimp only
      split
      · exact h
      · exact h.recordAccess (by simpa [callFits] using hfit) _ _ _ _
  | importSnapshot snapshot =>
    show Below (jar.importSnapshot env snapshot now)
    simp only [callFits, List.all_eq_true] at hfit
    unfold Jar.importSnapshot
    have hloaded : Below (snapshot.foldl (Jar.importRecord env now) jar) := by
      apply List.foldlRecOn
      · exact h
      · intro jar' hjar' record hrecord
        refine hjar'.importRecord fun hadm => ?_
        have := hfit record hrecord
        simpa [hadm] using this
    exact hloaded.shrinks
      ((shrinks_tidyEverySite now _ _).trans (shrinks_enforceTotal now _))

theorem below_run (limits : JarLimits) {calls : List (Call × SystemTime)}
    (hfit : runFits env (Jar.withLimits limits) calls) :
    Below ((Jar.withLimits limits).run env calls) := by
  have hrun : ∀ (calls : List (Call × SystemTime)) (jar : Jar), Below jar → jar.WF env →
      runFits env jar calls → Below (jar.run env calls) := by
    intro calls
    induction calls with
    | nil => exact fun jar h _ _ => h
    | cons call calls ih =>
      intro jar h hwf hfit
      rw [runFits, Bool.and_eq_true] at hfit
      exact ih _ (h.step hwf hfit.1) ((preserves_wf call).step hwf) hfit.2
  exact hrun calls _ (fun e he => absurd he (not_mem_withLimits limits e)) (wf_withLimits limits)
    hfit

/-! ## The newest cookie is not the first victim -/

/-- Every other entry was accessed before `e`. -/
def NewestOf (entries : List Entry) (e : Entry) : Prop :=
  e ∈ entries ∧ ∀ other ∈ entries, other ≠ e → other.lastAccessSeq < e.lastAccessSeq

/-- Dropping expired entries and trimming drops the newest live entry only with all others. -/
theorem tidy_eq_nil_of_newest {select : SelectNth} {b : Bucket} {keep : Nat}
    (hnew : NewestOf b.entries e) (hlive : e.cookie.isExpired now = false)
    (hgone : e ∉ ((b.removeExpired now).trimTo select keep).entries) :
    ((b.removeExpired now).trimTo select keep).entries = [] := by
  rw [List.eq_nil_iff_forall_not_mem]
  intro s hs
  have he : e ∈ (b.removeExpired now).entries := by simp [hnew.1, hlive]
  have hsb : s ∈ b.entries := by
    have hmem := (Bucket.trimTo_sublist _ _ _).subset hs
    rw [Bucket.entries_removeExpired] at hmem
    exact List.mem_of_mem_filter hmem
  have hne : s ≠ e := by
    rintro rfl
    exact hgone hs
  exact UInt64.not_lt.mpr (Bucket.le_of_trimTo he hgone hs) (hnew.2 s hsb hne)

theorem holdDown_eq_nil_of_newest {b : Bucket} {bound keep : Nat} (hnew : NewestOf b.entries e)
    (hlive : e.cookie.isExpired now = false)
    (hgone : e ∉ (holdDown env now bound keep b).entries) :
    (holdDown env now bound keep b).entries = [] := by
  unfold holdDown at hgone ⊢
  split at hgone
  · rename_i hover
    rw [if_pos hover]
    exact tidy_eq_nil_of_newest hnew hlive hgone
  · exact absurd hnew.1 hgone

/-- `e` is the newest entry of the jar, or its site's bucket has been emptied. -/
def LastStanding (env : Env) (e : Entry) (jar : Jar) : Prop :=
  NewestOf jar.entries.allEntries e ∨
    (jar.entries.bucketAt (siteOf env.rules e.cookie.domain)).entries = []

theorem NewestOf.shrinks (h : NewestOf jar.entries.allEntries e) (hmem : ∀ s ∈ jar', s ∈ jar)
    (he : e ∈ jar') : NewestOf jar'.entries.allEntries e :=
  ⟨Store.mem_allEntries.mpr he, fun other hother =>
    h.2 other (Store.mem_allEntries.mpr (hmem other (Store.mem_allEntries.mp hother)))⟩

theorem NewestOf.bucketAt (h : NewestOf jar.entries.allEntries e) (hwf : jar.WF env) :
    NewestOf (jar.entries.bucketAt (siteOf env.rules e.cookie.domain)).entries e :=
  ⟨(Store.WF.mem_iff hwf).mp (Store.mem_allEntries.mp h.1),
    fun other hother => h.2 other (Store.mem_allEntries.mpr ⟨_, hother⟩)⟩

/-- A step that empties the bucket rather than drop the newest entry from it. -/
theorem LastStanding.shrinks (h : LastStanding env e jar) (hwf : jar.WF env)
    (hwf' : jar'.WF env) (hmem : ∀ s ∈ jar', s ∈ jar)
    (hstep : NewestOf jar.entries.allEntries e → e ∉ jar' →
      (jar'.entries.bucketAt (siteOf env.rules e.cookie.domain)).entries = []) :
    LastStanding env e jar' := by
  rcases h with h | h
  · by_cases he : e ∈ jar'
    · exact Or.inl (h.shrinks hmem he)
    · exact Or.inr (hstep h he)
  · refine Or.inr (List.eq_nil_iff_forall_not_mem.mpr fun s hs => ?_)
    have hfiled := (Store.WF.fits_bucketAt hwf' _).filed s hs
    have hold := (Store.WF.mem_iff hwf).mp (hmem s ⟨_, hs⟩)
    rw [hfiled, h] at hold
    cases hold

theorem LastStanding.newest (h : LastStanding env e jar) (hwf : jar.WF env) (he : e ∈ jar) :
    NewestOf jar.entries.allEntries e := by
  refine h.resolve_right fun hnil => ?_
  have hmem := (Store.WF.mem_iff hwf).mp he
  rw [hnil] at hmem
  cases hmem

theorem LastStanding.eq_nil (h : LastStanding env e jar) (hgone : e ∉ jar) :
    (jar.entries.bucketAt (siteOf env.rules e.cookie.domain)).entries = [] :=
  h.resolve_left fun hnew => hgone (Store.mem_allEntries.mp hnew.1)

theorem LastStanding.tidySite (h : LastStanding env e jar) (hwf : jar.WF env)
    (hlive : e.cookie.isExpired now = false) (site : Str) :
    LastStanding env e (tidySite env now jar site) := by
  have hs : Shrinks env jar (Jar.tidySite env now jar site) := shrinks_tidySite now jar site
  refine h.shrinks hwf (hs.wf hwf) hs.mem fun hnew hgone => ?_
  rw [entries_tidySite]
  rw [mem_def, entries_tidySite, Store.mem_withSite, not_or, not_exists] at hgone
  by_cases hsite : siteOf env.rules e.cookie.domain = site
  · subst hsite
    rw [Store.entries_withSite_self]
    exact holdDown_eq_nil_of_newest (hnew.bucketAt hwf) hlive hgone.1
  · exact absurd ⟨hsite, (hnew.bucketAt hwf).1⟩ (hgone.2 _)

theorem LastStanding.tidySites (h : LastStanding env e jar) (hwf : jar.WF env)
    (hlive : e.cookie.isExpired now = false) (sites : List Str) :
    LastStanding env e (sites.foldl (Jar.tidySite env now) jar) := by
  induction sites generalizing jar with
  | nil => exact h
  | cons site sites ih =>
    exact ih (h.tidySite hwf hlive site) ((shrinks_tidySite now jar site).wf hwf)

/-- The global clean-up drops the newest live entry only with all others. -/
theorem NewestOf.enforceTotal (hnew : NewestOf jar.entries.allEntries e)
    (hlive : e.cookie.isExpired now = false) (hgone : e ∉ jar.enforceTotal now) (s : Entry) :
    s ∉ jar.enforceTotal now := by
  intro hs
  have hne : s ≠ e := by
    rintro rfl
    exact hgone hs
  have hrank := Store.rank_le_of_enforceTotal (Store.mem_allEntries.mp hnew.1) hgone hs
  have hlt := hnew.2 s (Store.mem_allEntries.mpr (Store.mem_of_mem_enforceTotal hs)) hne
  -- A live entry ranks by access number, and above every expired one.
  rw [Store.rankForEviction, hlive, Store.rankForEviction, Prod.Lex.toLex_le_toLex] at hrank
  rw [UInt64.lt_iff_toNat_lt] at hlt
  cases hexp : s.cookie.isExpired now <;> simp [hexp] at hrank
  omega

theorem LastStanding.tidyEverySite (h : LastStanding env e jar) (hwf : jar.WF env)
    (hlive : e.cookie.isExpired now = false) (perDomain : Nat) :
    LastStanding env e
      { jar with entries := jar.entries.tidyEverySite env.select now perDomain } := by
  have hs : Shrinks env jar _ := shrinks_tidyEverySite now jar perDomain
  refine h.shrinks hwf (hs.wf hwf) hs.mem fun hnew hgone => ?_
  have hold := hnew.bucketAt hwf
  have hentries := Store.entries_tidyEverySite env.select jar.entries now perDomain
    (siteOf env.rules e.cookie.domain)
  rw [hentries]
  apply tidy_eq_nil_of_newest hold hlive
  intro hkept
  rw [← hentries] at hkept
  exact hgone ⟨_, hkept⟩

/-- An entry just written is the newest of the jar, or its bucket was emptied at once. -/
theorem lastStanding_of_writes (hwf : jar.WF env) (hbelow : Below jar)
    (hw : Writes env jar now requestIsSecure cookie e) :
    LastStanding env e (jar.storeCookie env now requestIsSecure cookie) := by
  obtain ⟨hcookie, hlive, hseq, -⟩ := hw.spec hwf
  have hold : ∀ other, other ∈ jar ∨ Writes env jar now requestIsSecure cookie other →
      other ≠ e → other.lastAccessSeq < e.lastAccessSeq := by
    rintro other (hother | hother) hne
    · exact hseq ▸ (hbelow other hother).2
    · exact absurd (hother.unique hwf hw) hne
  by_cases he : e ∈ jar.storeCookie env now requestIsSecure cookie
  · exact Or.inl ⟨Store.mem_allEntries.mpr he, fun other hother =>
      hold other (mem_storeCookie_or_writes (Store.mem_allEntries.mp hother))⟩
  · right
    rw [hcookie, entries_storeCookie, Store.entries_withSite_self]
    apply holdDown_eq_nil_of_newest (e := e) _ (hcookie ▸ hlive)
    · intro hkept
      apply he
      rw [mem_def, entries_storeCookie, Store.mem_withSite]
      exact Or.inl hkept
    · refine ⟨hw.1, fun other hother => hold other ?_⟩
      by_cases hbucket : other ∈ (jar.entries.bucketAt (siteOf env.rules cookie.domain)).entries
      · exact Or.inl ⟨_, hbucket⟩
      · exact Or.inr ⟨hother, hbucket⟩

/-- A cookie that writes nothing and is not of the newest entry's identity. -/
theorem LastStanding.storeCookie (h : LastStanding env e jar) (hwf : jar.WF env)
    (hlive : e.cookie.isExpired now = false)
    (hquiet : ∀ s, ¬ Writes env jar now requestIsSecure cookie s)
    (hne : identityOf cookie ≠ e.identity) :
    LastStanding env e (jar.storeCookie env now requestIsSecure cookie) := by
  refine h.shrinks hwf (hwf.storeCookie _ _ _)
    (fun s hs => (mem_storeCookie_or_writes hs).resolve_right (hquiet s)) fun hnew hgone => ?_
  have hbucket := hnew.bucketAt hwf
  rw [mem_def, entries_storeCookie, Store.mem_withSite, not_or, not_exists] at hgone
  by_cases hsite : siteOf env.rules e.cookie.domain = siteOf env.rules cookie.domain
  · rw [hsite] at hbucket ⊢
    rw [entries_storeCookie, Store.entries_withSite_self]
    refine holdDown_eq_nil_of_newest ⟨?_, fun other hother => ?_⟩ hlive hgone.1
    · exact (applySetCookie_cases (Store.WF.fits_bucketAt hwf _).wf cookie now requestIsSecure
        jar.toCounters).mem_of_ne hbucket.1 hne.symm
    · by_contra hnot
      refine hquiet other ⟨hother, fun hold => hnot (hbucket.2 other hold)⟩
  · exact absurd ⟨hsite, hbucket.1⟩ (hgone.2 _)

variable (env) in
/-- None of the cookies writes an entry. -/
def Quiet (now : SystemTime) (requestIsSecure : Bool) : Jar → List Cookie → Prop
  | _, [] => True
  | jar, cookie :: cookies => (∀ e, ¬ Writes env jar now requestIsSecure cookie e) ∧
      Quiet now requestIsSecure (jar.storeCookie env now requestIsSecure cookie) cookies

theorem LastStanding.storeCookies {cookies : List Cookie} (h : LastStanding env e jar)
    (hwf : jar.WF env) (hlive : e.cookie.isExpired now = false)
    (hquiet : Quiet env now requestIsSecure jar cookies)
    (hne : ∀ cookie ∈ cookies, identityOf cookie ≠ e.identity) :
    LastStanding env e (storeCookies env now requestIsSecure jar cookies) := by
  induction cookies generalizing jar with
  | nil => exact h
  | cons cookie cookies ih =>
    obtain ⟨hhere, hne⟩ := List.forall_mem_cons.mp hne
    exact ih (h.storeCookie hwf hlive hquiet.1 hhere) (hwf.storeCookie _ _ _) hquiet.2 hne

theorem mem_of_storeCookies {cookies : List Cookie}
    (hquiet : Quiet env now requestIsSecure jar cookies)
    (he : e ∈ storeCookies env now requestIsSecure jar cookies) : e ∈ jar := by
  induction cookies generalizing jar with
  | nil => exact he
  | cons cookie cookies ih =>
    exact (mem_storeCookie_or_writes (ih hquiet.2 he)).resolve_right (hquiet.1 e)

/-! ## Runs -/

/-- A call only moves forward from `jar`.

For each accepted cookie of a response and the entry `e` it writes: no other entry was accessed
after `e`; if `e` replaces nothing, it was created after every entry present; and the trim within
the response evicts `e` only when nothing else of its site is left. If no later cookie of the
response writes an entry, `e` is the newest of all: unless one of them deletes it, the clean-ups of
the sites evict it only when nothing else of its site is left, and the global one only when nothing
is left in the jar. The cookies a lookup serves are in creation order within equal path lengths, and
none of the jar is accessed after them. The clean-ups after an imported snapshot evict the newest
entry in the same way. -/
def Advances (env : Env) (jar : Jar) (call : Call × SystemTime) : Prop :=
  match call.1 with
  | .store url setCookie =>
    ∀ origin, Origin.ofUrl url = some origin →
    ∀ front cookie back,
      accepted env origin url.path call.2 setCookie = front ++ cookie :: back →
      let before := storeCookies env call.2 origin.isSecure jar front
      let after := before.storeCookie env call.2 origin.isSecure cookie
      let stored := storeHeaders env origin url.path call.2 jar setCookie
      let tidied := stored.2.foldl (tidySite env call.2) stored.1
      let final := jar.store env url setCookie call.2
      let site := siteOf env.rules cookie.domain
      ∀ e, Writes env before call.2 origin.isSecure cookie e →
        (∀ other ∈ before, other.lastAccessSeq < e.lastAccessSeq) ∧
        ((∀ other ∈ before, other.identity ≠ e.identity) →
          ∀ other ∈ before, other.creationSeq < e.creationSeq) ∧
        (e ∉ after → (after.entries.bucketAt site).entries = []) ∧
        (Quiet env call.2 origin.isSecure after back →
          (e ∉ tidied → (∃ later ∈ back, identityOf later = e.identity) ∨
            (tidied.entries.bucketAt site).entries = []) ∧
          (e ∈ tidied → e ∉ final → ∀ s, s ∉ final))
  | .cookiesFor url context =>
    ∀ origin, Origin.ofUrl url = some origin →
      let served := jar.served env origin url.path context call.2
      let after := (jar.cookiesFor env url context call.2).2
      served.Pairwise (fun a b => Text.byteLen a.cookie.path = Text.byteLen b.cookie.path →
        a.creationSeq ≤ b.creationSeq) ∧
      ∀ e ∈ served, { e with lastAccessSeq := jar.nextAccessSeq } ∈ after ∧
        ∀ other ∈ after, other.lastAccessSeq ≤ jar.nextAccessSeq
  | .importSnapshot snapshot =>
    let loaded := snapshot.foldl (importRecord env call.2) jar
    let tidied := { loaded with
      entries := loaded.entries.tidyEverySite env.select call.2 loaded.limits.perDomain }
    let final := jar.importSnapshot env snapshot call.2
    ∀ e, NewestOf loaded.entries.allEntries e → e.cookie.isExpired call.2 = false →
      (e ∉ tidied → (tidied.entries.bucketAt (siteOf env.rules e.cookie.domain)).entries = []) ∧
      (e ∈ tidied → e ∉ final → ∀ s, s ∉ final)

theorem advances_store (h : Below jar) (hwf : jar.WF env) {url : Url}
    {headers : List HeaderValue} (hfit : jar.callFits env (.store url headers, now)) :
    Advances env jar (.store url headers, now) := by
  intro origin horigin front cookie back hsplit before after stored tidied final site e hw
  simp only [callFits, horigin, hsplit] at hfit
  have hfront := cookiesFit_front hfit
  obtain ⟨hbelow, hbwf⟩ := below_storeCookies h hwf hfront.1
  obtain ⟨hcookie, hlive, hseq, hcreation⟩ := hw.spec hbwf
  have hstanding : LastStanding env e after := lastStanding_of_writes hbwf hbelow hw
  have hsite : siteOf env.rules e.cookie.domain = site := by rw [hcookie]
  refine ⟨?_, ?_, ?_, ?_⟩
  · intro other hother
    exact hseq ▸ (hbelow other hother).2
  · intro hfresh other hother
    rcases hcreation with ⟨-, hdrawn⟩ | ⟨old, hold, hid, -⟩
    · exact hdrawn ▸ (hbelow other hother).1
    · exact absurd hid (hfresh old hold)
  · exact fun hgone => hsite ▸ hstanding.eq_nil hgone
  · intro hquiet
    have hlive' : e.cookie.isExpired now = false := hcookie ▸ hlive
    have hstored : stored.1 = storeCookies env now origin.isSecure after back := by
      rw [storeHeaders_fst, hsplit, storeCookies, List.foldl_append]
      rfl
    have hawf : after.WF env := hbwf.storeCookie _ _ _
    have hswf : stored.1.WF env := by
      rw [hstored]
      exact List.foldlRecOn back _ hawf fun _ h _ _ => h.storeCookie _ _ _
    constructor
    · intro hgone
      refine or_iff_not_imp_left.mpr fun hkept => ?_
      have hlast : LastStanding env e stored.1 := hstored ▸ hstanding.storeCookies hawf hlive'
        hquiet fun later hlater hid => hkept ⟨later, hlater, hid⟩
      exact hsite ▸ (hlast.tidySites hswf hlive' stored.2).eq_nil hgone
    · intro htidied hgone
      have hfinal : final = tidied.enforceTotal now := by
        show jar.store env url headers now = _
        unfold Jar.store
        simp only [horigin]
        rfl
      have hmem : ∀ s ∈ tidied, s ∈ after := fun s hs =>
        mem_of_storeCookies hquiet (hstored ▸ (shrinks_tidySites now _ _).mem s hs)
      rw [hfinal] at hgone ⊢
      have hnew := (hstanding.newest hawf (hmem e htidied)).shrinks hmem htidied
      exact hnew.enforceTotal hlive' hgone

theorem mem_recordAccess_of_served {origin : Origin} {requestPath : Str}
    {context : CookieContext} (he : e ∈ jar.served env origin requestPath context now) :
    { e with lastAccessSeq := jar.nextAccessSeq } ∈
      jar.recordAccess env origin requestPath context now := by
  obtain ⟨hbucket, helig⟩ := mem_served.mp he
  refine ⟨siteOf env.rules origin.host, ?_⟩
  unfold Jar.recordAccess
  rw [Store.entries_mapSite, if_pos rfl]
  exact List.mem_map.mpr ⟨e, hbucket, by rw [if_pos helig]⟩

theorem advances_cookiesFor (h : Below jar) (url : Url) (context : CookieContext) :
    Advances env jar (.cookiesFor url context, now) := by
  intro origin horigin served after
  refine ⟨(pairwise_served jar origin url.path context now).imp ?_, fun e he => ?_⟩
  · intro a b hab hlen
    exact (hab.resolve_left (by omega)).2
  · have hafter : after = jar.recordAccess env origin url.path context now := by
      have hne : jar.served env origin url.path context now ≠ [] := List.ne_nil_of_mem he
      show (jar.cookiesFor env url context now).2 = _
      unfold cookiesFor
      simp [horigin, hne]
    rw [hafter]
    refine ⟨mem_recordAccess_of_served he, fun other hother => ?_⟩
    obtain ⟨old, hold, -, -, hseq | hseq⟩ := mem_recordAccess hother
    · exact hseq ▸ UInt64.le_of_lt (h old hold).2
    · exact hseq ▸ UInt64.le_refl _

theorem advances_importSnapshot (hwf : jar.WF env) (snapshot : List CookieRecord) :
    Advances env jar (.importSnapshot snapshot, now) := by
  intro e hnew hlive
  set loaded := snapshot.foldl (importRecord env now) jar
  have hlwf : loaded.WF env := by
    apply List.foldlRecOn
    · exact hwf
    · exact fun jar' hjar' record _ => hjar'.importRecord now record
  have hlast := LastStanding.tidyEverySite (Or.inl hnew) hlwf hlive loaded.limits.perDomain
  have htwf := (shrinks_tidyEverySite now loaded loaded.limits.perDomain).wf hlwf
  exact ⟨hlast.eq_nil, fun htidied hgone => (hlast.newest htwf htidied).enforceTotal hlive hgone⟩

/-- **Sequence numbers advance** at every call of every run that stays clear of the top of the
range. -/
theorem run_advances (env : Env) (limits : JarLimits) (calls : List (Call × SystemTime))
    (call : Call × SystemTime) (hfit : runFits env (Jar.withLimits limits) (calls ++ [call])) :
    Advances env ((Jar.withLimits limits).run env calls) call := by
  rw [runFits_append, Bool.and_eq_true] at hfit
  have hbelow := below_run limits hfit.1
  have hwf : ((Jar.withLimits limits).run env calls).WF env := wf_run limits calls
  have hlast := hfit.2
  rw [runFits, Bool.and_eq_true] at hlast
  obtain ⟨call, now⟩ := call
  cases call with
  | store url headers => exact advances_store hbelow hwf hlast.1
  | cookiesFor url context => exact advances_cookiesFor hbelow url context
  | importSnapshot snapshot => exact advances_importSnapshot hwf snapshot

theorem advances_session :
    let env : Env := ⟨[⟨[.label "com".toList], false⟩], .sorting⟩
    let url := Url.plain "https" "example.com" "/"
    Advances env ((Jar.withLimits {}).run env [(.store url [.fromStatic "a=1"], 0)])
      (.store url [.fromStatic "b=2", .fromStatic "a=3"], 1) :=
  run_advances _ {} [_] _ (by decide)

/-- A record that carries the largest sequence numbers. -/
def topRecord : CookieRecord where
  name := "top".toList
  value := "0".toList
  domain := "example.com".toList
  hostOnly := true
  path := "/".toList
  secure := false
  httpOnly := false
  sameSite := .lax
  partitioned := false
  expires := none
  creationSeq := u64Max
  lastAccessSeq := u64Max

/-- After a record with the largest numbers, the next cookie gets the same ones and the one after
that gets zero: it is sent first though created last, and a bucket of two gives it up at once. -/
theorem wrapped_numbers_go_backwards :
    let env : Env := ⟨[⟨[.label "com".toList], false⟩], .sorting⟩
    let url := Url.plain "https" "example.com" "/"
    let calls : List (Call × SystemTime) := [(.importSnapshot [topRecord], 0),
      (.store url [.fromStatic "a=1"], 0), (.store url [.fromStatic "b=2"], 0)]
    let roomy := (Jar.withLimits {}).run env calls
    let full := (Jar.withLimits { perDomain := 2, total := 10 }).run env calls
    (roomy.entries.allEntries.map fun e => (e.cookie.name, e.creationSeq)) =
        [("top".toList, u64Max), ("a".toList, u64Max), ("b".toList, 0)] ∧
      (roomy.cookiesFor env url .conservativeDefault 0).1.bind HeaderValue.toStr =
        some "b=2; top=0; a=1".toList ∧
      full.entries.allEntries.map (·.cookie.name) = ["top".toList, "a".toList] := by
  decide

end Jar

end Chromulate.Cookies
