import Chromulate.Cookies.Jar

/-!
# What a call does to a jar

`applySetCookie_cases` lists the outcomes of one `Set-Cookie` on one bucket; the clean-ups only
ever take entries away (`Shrinks`). From these, `Preserves.run` is the rule every invariant of
a jar is proved with: what the small steps of a call keep, a whole run keeps.

**Theorem (`run_bookkeeping`).** In every jar a run reaches, the position indices, the one entry
an identity, the filing by site and the running total are all as they should be.
-/

namespace Chromulate.Cookies

open PublicSuffix Select

/-! ## One `Set-Cookie` on one bucket -/

/-- The outcomes of `apply_set_cookie`. -/
inductive Applied (bucket : Bucket) (cookie : Cookie) (now : SystemTime) (requestIsSecure : Bool)
    (seqs : Counters) : Bucket × Counters → Prop where
  /-- Refused, or a deletion of nothing. -/
  | ignored : Applied bucket cookie now requestIsSecure seqs (bucket, seqs)
  | deleted {position : Nat} {old : Entry} (hold : bucket.get position = some old)
      (hid : old.identity = identityOf cookie) (hreach : old.cookie.secure → requestIsSecure)
      (hdead : cookie.isExpired now) :
      Applied bucket cookie now requestIsSecure seqs (bucket.remove position, seqs)
  | replaced {position : Nat} {old : Entry} (hold : bucket.get position = some old)
      (hid : old.identity = identityOf cookie) (hreach : old.cookie.secure → requestIsSecure)
      (hlive : cookie.isExpired now = false) :
      Applied bucket cookie now requestIsSecure seqs
        (bucket.replace position ⟨cookie, old.creationSeq, seqs.nextAccessSeq⟩,
          { seqs with nextAccessSeq := seqs.nextAccessSeq + 1 })
  | inserted (hnew : ∀ e ∈ bucket.entries, e.identity ≠ identityOf cookie)
      (hlive : cookie.isExpired now = false) :
      Applied bucket cookie now requestIsSecure seqs
        (bucket.push ⟨cookie, seqs.nextCreationSeq, seqs.nextAccessSeq⟩,
          ⟨seqs.nextCreationSeq + 1, seqs.nextAccessSeq + 1⟩)

theorem applySetCookie_cases {bucket : Bucket} (h : bucket.WF) (cookie : Cookie)
    (now : SystemTime) (requestIsSecure : Bool) (seqs : Counters) :
    Applied bucket cookie now requestIsSecure seqs
      (applySetCookie bucket cookie now requestIsSecure seqs) := by
  unfold applySetCookie
  cases hex : bucket.positionOf cookie.name cookie.domain cookie.path with
  | none =>
    have hnew := h.positionOf_eq_none.mp hex
    by_cases hexp : cookie.isExpired now
    · simp only [isShielded, hexp, if_true, Bool.false_eq_true, if_false]
      exact .ignored
    · simp only [isShielded, hexp, Bool.false_eq_true, if_false]
      exact .inserted hnew (Bool.eq_false_iff.mpr hexp)
  | some position =>
    obtain ⟨old, hold, hid⟩ := h.get_of_positionOf hex
    simp only [isShielded, hold, Option.any_some, Option.map_some, Option.getD_some]
    by_cases hshield : (old.cookie.secure && !requestIsSecure) = true
    · rw [if_pos hshield]
      exact .ignored
    · have hreach : old.cookie.secure → requestIsSecure := by
        intro hsec
        simpa [hsec] using hshield
      rw [if_neg hshield]
      by_cases hexp : cookie.isExpired now
      · rw [if_pos hexp]
        exact .deleted hold hid hreach hexp
      · rw [if_neg hexp]
        exact .replaced hold hid hreach (Bool.eq_false_iff.mpr hexp)

variable {rules : List (Rule Str)} {bucket : Bucket} {cookie : Cookie} {now : SystemTime}
  {requestIsSecure : Bool} {seqs : Counters} {result : Bucket × Counters}

theorem Applied.fits (ha : Applied bucket cookie now requestIsSecure seqs result)
    (h : Store.Fits rules (siteOf rules cookie.domain) bucket) :
    Store.Fits rules (siteOf rules cookie.domain) result.1 := by
  cases ha with
  | ignored => exact h
  | deleted hold hid hreach hdead =>
    exact h.sublist (h.wf.remove _) fun e he => Bucket.mem_remove he
  | replaced hold hid hreach hlive =>
    refine ⟨h.wf.replace hold hid.symm, fun e he => ?_⟩
    rcases Bucket.mem_replace he with he | rfl
    · exact h.filed e he
    · rfl
  | inserted hnew hlive =>
    refine ⟨h.wf.push hnew, fun e he => ?_⟩
    rcases List.mem_append.mp he with he | he
    · exact h.filed e he
    · rw [List.mem_singleton.mp he]

/-- Whatever the outcome, the entries are old ones or carry the new cookie. -/
theorem Applied.mem (ha : Applied bucket cookie now requestIsSecure seqs result) {e : Entry}
    (he : e ∈ result.1.entries) : e ∈ bucket.entries ∨ e.cookie = cookie := by
  cases ha with
  | ignored => exact Or.inl he
  | deleted => exact Or.inl (Bucket.mem_remove he)
  | replaced => exact (Bucket.mem_replace he).imp_right fun h => by rw [h]
  | inserted =>
    rcases List.mem_append.mp he with he | he
    · exact Or.inl he
    · exact Or.inr (by rw [List.mem_singleton.mp he])

/-! ## Clean-ups -/

theorem fits_holdDown {site : Str} (h : Store.Fits rules site bucket) (env : Env)
    (bound keep : Nat) :
    Store.Fits rules site (holdDown env now bound keep bucket) := by
  unfold holdDown
  split
  · exact h.tidy env.select now keep
  · exact h

theorem mem_of_mem_holdDown {env : Env} {bound keep : Nat} {e : Entry}
    (he : e ∈ (holdDown env now bound keep bucket).entries) : e ∈ bucket.entries := by
  unfold holdDown at he
  split at he
  · have hmem := (Bucket.trimTo_sublist _ _ _).subset he
    rw [Bucket.entries_removeExpired] at hmem
    exact List.mem_of_mem_filter hmem
  · exact he

namespace Jar

/-- The jar's buckets, index and total are in step. -/
def WF (env : Env) (jar : Jar) : Prop := jar.entries.WF env.rules

/-- `after` is `before` with some entries taken away. -/
structure Shrinks (env : Env) (before after : Jar) : Prop where
  wf : before.WF env → after.WF env
  counters : after.toCounters = before.toCounters
  limits : after.limits = before.limits
  mem : ∀ e ∈ after, e ∈ before

variable {env : Env} {jar : Jar}

theorem Shrinks.trans {before middle after : Jar} (h : Shrinks env before middle)
    (h' : Shrinks env middle after) : Shrinks env before after where
  wf hwf := h'.wf (h.wf hwf)
  counters := h'.counters.trans h.counters
  limits := h'.limits.trans h.limits
  mem e he := h.mem e (h'.mem e he)

theorem entries_tidySite (now : SystemTime) (jar : Jar) (site : Str) :
    (tidySite env now jar site).entries = (jar.entries.withSite site fun b =>
      (holdDown env now jar.limits.perDomain jar.limits.domainPurgeTarget b, ())).1 := rfl

theorem shrinks_tidySite (now : SystemTime) (jar : Jar) (site : Str) :
    Shrinks env jar (tidySite env now jar site) where
  wf h := by
    rw [WF, entries_tidySite]
    exact Store.WF.withSite h fun hfits => fits_holdDown hfits env _ _
  counters := rfl
  limits := rfl
  mem e he := by
    rw [mem_def, entries_tidySite, Store.mem_withSite] at he
    rcases he with he | ⟨k, -, he⟩
    · exact ⟨site, mem_of_mem_holdDown he⟩
    · exact ⟨k, he⟩

theorem shrinks_enforceTotal (now : SystemTime) (jar : Jar) :
    Shrinks env jar (jar.enforceTotal now) where
  wf h := Store.WF.enforceTotal h _ _ _
  counters := rfl
  limits := rfl
  mem _ he := Store.mem_of_mem_enforceTotal he

theorem shrinks_tidyEverySite (now : SystemTime) (jar : Jar) (perDomain : Nat) :
    Shrinks env jar
      { jar with entries := jar.entries.tidyEverySite env.select now perDomain } where
  wf h := Store.WF.tidyEverySite h _ _ _
  counters := rfl
  limits := rfl
  mem _ he := Store.mem_tidyEverySite he

/-! ## The other small steps -/

theorem entries_storeCookie (jar : Jar) (now : SystemTime) (requestIsSecure : Bool)
    (cookie : Cookie) :
    (jar.storeCookie env now requestIsSecure cookie).entries =
      (jar.entries.withSite (siteOf env.rules cookie.domain) fun b =>
        (holdDown env now jar.limits.holdDownAt jar.limits.perDomain
          (applySetCookie b cookie now requestIsSecure jar.toCounters).1,
        (applySetCookie b cookie now requestIsSecure jar.toCounters).2)).1 := rfl

theorem WF.storeCookie (h : jar.WF env) (now : SystemTime) (requestIsSecure : Bool)
    (cookie : Cookie) : (jar.storeCookie env now requestIsSecure cookie).WF env := by
  rw [WF, entries_storeCookie]
  refine Store.WF.withSite h fun hfits => fits_holdDown ?_ env _ _
  exact (applySetCookie_cases hfits.wf cookie now requestIsSecure _).fits hfits

theorem entries_importRecord {record : CookieRecord} (hadm : record.isAdmitted now) (jar : Jar) :
    (jar.importRecord env now record).entries =
      (jar.entries.withSite (siteOf env.rules record.domain) fun b =>
        (b.adopt record.entry, ())).1 := by
  rw [Jar.importRecord, if_pos hadm]

theorem WF.recordAccess (h : jar.WF env) (origin : Origin) (requestPath : Str)
    (context : CookieContext) (now : SystemTime) :
    (jar.recordAccess env origin requestPath context now).WF env := by
  unfold Jar.recordAccess
  refine Store.WF.mapSite h _ fun e => ?_
  split <;> rfl

theorem fits_adopt {site : Str} {b : Bucket} {entry : Entry}
    (h : Store.Fits env.rules site b) (hsite : siteOf env.rules entry.cookie.domain = site) :
    Store.Fits env.rules site (b.adopt entry) := by
  unfold Bucket.adopt
  split
  · rename_i position hpos
    obtain ⟨old, hold, hid⟩ := h.wf.get_of_positionOf hpos
    have hfresh : ∀ e ∈ (b.remove position).entries, e.identity ≠ entry.identity := by
      intro e he
      rw [show entry.identity = old.identity from hid.symm]
      exact h.wf.ne_of_mem_remove hold he
    refine ⟨(h.wf.remove position).push hfresh, fun e he => ?_⟩
    rcases List.mem_append.mp he with he | he
    · exact h.filed e (Bucket.mem_remove he)
    · rw [List.mem_singleton.mp he, hsite]
  · rename_i hpos
    refine ⟨h.wf.push (h.wf.positionOf_eq_none.mp hpos), fun e he => ?_⟩
    rcases List.mem_append.mp he with he | he
    · exact h.filed e he
    · rw [List.mem_singleton.mp he, hsite]

theorem WF.importRecord (h : jar.WF env) (now : SystemTime) (record : CookieRecord) :
    (jar.importRecord env now record).WF env := by
  by_cases hadm : record.isAdmitted now
  · rw [WF, entries_importRecord hadm]
    exact Store.WF.withSite h fun hfits => fits_adopt hfits rfl
  · rw [Jar.importRecord, if_neg hadm]
    exact h

/-! ## The loop over the headers -/

variable (env) in
/-- The cookies of the headers `Cookie::parse` accepts. -/
def accepted (origin : Origin) (requestPath : Str) (now : SystemTime)
    (headers : List HeaderValue) : List Cookie :=
  headers.filterMap fun header =>
    Cookie.parse env.rules header origin.host requestPath origin.isSecure now

variable {origin : Origin} {requestPath : Str} {e : Entry}

theorem mem_accepted {headers : List HeaderValue} :
    cookie ∈ accepted env origin requestPath now headers ↔ ∃ header ∈ headers,
      Cookie.parse env.rules header origin.host requestPath origin.isSecure now = some cookie := by
  simp [accepted]

variable (env) in
/-- The loop without its list of touched sites. -/
def storeCookies (now : SystemTime) (requestIsSecure : Bool) (jar : Jar)
    (cookies : List Cookie) : Jar :=
  cookies.foldl (fun jar cookie => jar.storeCookie env now requestIsSecure cookie) jar

theorem foldl_storeHeader (origin : Origin) (requestPath : Str) (now : SystemTime)
    (state : Jar × List Str) (headers : List HeaderValue) :
    (headers.foldl (storeHeader env origin requestPath now) state).1 =
      storeCookies env now origin.isSecure state.1 (accepted env origin requestPath now headers) ∧
    ∀ site ∈ (headers.foldl (storeHeader env origin requestPath now) state).2,
      site ∈ state.2 ∨ ∃ cookie ∈ accepted env origin requestPath now headers,
        siteOf env.rules cookie.domain = site := by
  induction headers generalizing state with
  | nil => exact ⟨rfl, fun site h => Or.inl h⟩
  | cons header rest ih =>
    rw [List.foldl_cons]
    cases hparse : Cookie.parse env.rules header origin.host requestPath origin.isSecure now with
    | none =>
      have hstep : storeHeader env origin requestPath now state header = state := by
        simp [storeHeader, hparse]
      have hacc : accepted env origin requestPath now (header :: rest) =
          accepted env origin requestPath now rest := by
        simp [accepted, hparse]
      rw [hstep, hacc]
      exact ih state
    | some cookie =>
      have hacc : accepted env origin requestPath now (header :: rest) =
          cookie :: accepted env origin requestPath now rest := by
        simp [accepted, hparse]
      obtain ⟨hfst, hsnd⟩ := ih (storeHeader env origin requestPath now state header)
      have hstep : (storeHeader env origin requestPath now state header).1 =
          state.1.storeCookie env now origin.isSecure cookie := by
        simp [storeHeader, hparse]
      refine ⟨by rw [hfst, hacc, hstep]; rfl, fun site hsite => ?_⟩
      rw [hacc]
      rcases hsnd site hsite with h | ⟨c, hc, heq⟩
      · simp only [storeHeader, hparse] at h
        split at h
        · exact Or.inl h
        · rcases List.mem_append.mp h with h | h
          · exact Or.inl h
          · exact Or.inr ⟨cookie, List.mem_cons_self, (List.mem_singleton.mp h).symm⟩
      · exact Or.inr ⟨c, List.mem_cons_of_mem _ hc, heq⟩

theorem storeHeaders_fst (origin : Origin) (requestPath : Str) (now : SystemTime) (jar : Jar)
    (headers : List HeaderValue) :
    (storeHeaders env origin requestPath now jar headers).1 =
      storeCookies env now origin.isSecure jar (accepted env origin requestPath now headers) :=
  (foldl_storeHeader origin requestPath now (jar, []) headers).1

/-- The loop touches the sites of the accepted cookies. -/
theorem mem_touched {headers : List HeaderValue} {site : Str}
    (h : site ∈ (storeHeaders env origin requestPath now jar headers).2) :
    ∃ cookie ∈ accepted env origin requestPath now headers,
      siteOf env.rules cookie.domain = site := by
  simpa using (foldl_storeHeader origin requestPath now (jar, []) headers).2 site h

/-! ## From small steps to runs -/

/-- What has to be shown of an invariant for the calls of a run to keep it. -/
structure Preserves (env : Env) (Inv : Jar → Prop) (call : Call × SystemTime) : Prop where
  shrinks : ∀ jar jar', Shrinks env jar jar' → Inv jar → Inv jar'
  storeCookie : ∀ jar url headers origin header cookie, call.1 = .store url headers →
    Origin.ofUrl url = some origin → header ∈ headers →
    Cookie.parse env.rules header origin.host url.path origin.isSecure call.2 = some cookie →
    Inv jar → Inv (jar.storeCookie env call.2 origin.isSecure cookie)
  recordAccess : ∀ jar url context origin, call.1 = .cookiesFor url context →
    Origin.ofUrl url = some origin →
    Inv jar → Inv (jar.recordAccess env origin url.path context call.2)
  importRecord : ∀ jar snapshot record, call.1 = .importSnapshot snapshot → record ∈ snapshot →
    record.isAdmitted call.2 → Inv jar → Inv (jar.importRecord env call.2 record)

/-- **One call keeps what its small steps keep.** -/
theorem Preserves.step {Inv : Jar → Prop} {call : Call × SystemTime}
    (h : Preserves env Inv call) (hjar : Inv jar) : Inv (jar.step env call) := by
  obtain ⟨call, now⟩ := call
  cases call with
  | store url headers =>
    show Inv (jar.store env url headers now)
    unfold Jar.store
    split
    · exact hjar
    · rename_i origin horigin
      dsimp only
      apply h.shrinks _ _ (shrinks_enforceTotal now _)
      apply List.foldlRecOn
      · rw [storeHeaders_fst]
        apply List.foldlRecOn
        · exact hjar
        · intro jar' hjar' cookie hcookie
          obtain ⟨header, hheader, hparse⟩ := mem_accepted.mp hcookie
          exact h.storeCookie jar' url headers origin header cookie rfl horigin hheader hparse
            hjar'
      · intro jar' hjar' site _
        exact h.shrinks _ _ (shrinks_tidySite now jar' site) hjar'
  | cookiesFor url context =>
    show Inv (jar.cookiesFor env url context now).2
    unfold Jar.cookiesFor
    split
    · exact hjar
    · rename_i origin horigin
      dsimp only
      split
      · exact hjar
      · exact h.recordAccess jar url context origin rfl horigin hjar
  | importSnapshot snapshot =>
    show Inv (jar.importSnapshot env snapshot now)
    unfold Jar.importSnapshot
    dsimp only
    apply h.shrinks _ _ (shrinks_enforceTotal now _)
    apply h.shrinks _ _ (shrinks_tidyEverySite now _ _)
    apply List.foldlRecOn
    · exact hjar
    · intro jar' hjar' record hrecord
      by_cases hadm : record.isAdmitted now
      · exact h.importRecord jar' snapshot record rfl hrecord hadm hjar'
      · rw [Jar.importRecord, if_neg hadm]
        exact hjar'

/-- **A run keeps what every one of its calls keeps.** -/
theorem Preserves.run {Inv : Jar → Prop} {calls : List (Call × SystemTime)}
    (h : ∀ call ∈ calls, Preserves env Inv call) (hjar : Inv jar) : Inv (jar.run env calls) := by
  unfold Jar.run
  apply List.foldlRecOn
  · exact hjar
  · intro jar' hjar' call hcall
    exact (h call hcall).step hjar'

/-! ## Bookkeeping -/

theorem preserves_wf (call : Call × SystemTime) : Preserves env (WF env) call where
  shrinks _ _ hs h := hs.wf h
  storeCookie _ _ _ _ _ _ _ _ _ _ h := h.storeCookie _ _ _
  recordAccess _ _ _ _ _ _ h := h.recordAccess _ _ _ _
  importRecord _ _ _ _ _ _ h := h.importRecord _ _

theorem wf_withLimits (limits : JarLimits) : (Jar.withLimits limits).WF env := Store.wf_empty

theorem not_mem_withLimits (limits : JarLimits) (e : Entry) : ¬ e ∈ Jar.withLimits limits := by
  rintro ⟨site, he⟩
  simp [Jar.withLimits, Store.bucketAt] at he

theorem wf_run (limits : JarLimits) (calls : List (Call × SystemTime)) :
    ((Jar.withLimits limits).run env calls).WF env :=
  Preserves.run (fun call _ => preserves_wf call) (wf_withLimits limits)

/-- **The jar's bookkeeping never drifts.** In every jar reached from an empty one: each bucket
is not empty, its index maps exactly the identities of its entries, each to its own position, and
its entries belong to the site it stands under; no identity occurs twice in the jar; and `total`
is the sum of the bucket lengths. -/
theorem run_bookkeeping (env : Env) (limits : JarLimits) (calls : List (Call × SystemTime)) :
    let store := ((Jar.withLimits limits).run env calls).entries
    (∀ site bucket, store.sites.lookup site = some bucket →
      bucket.entries ≠ [] ∧
      (∀ identity position, bucket.index.lookup identity = some position ↔
        (bucket.entries[position]?).map Entry.identity = some identity) ∧
      ∀ e ∈ bucket.entries, siteOf env.rules e.cookie.domain = site) ∧
    (store.allEntries.map Entry.identity).Nodup ∧
    store.total = (store.sites.values.map Bucket.len).sum := by
  intro store
  have h : store.WF env.rules := wf_run limits calls
  refine ⟨fun site bucket hb => ?_, h.nodup, h.total_eq⟩
  exact ⟨h.nonempty site bucket hb, (h.fits site bucket hb).wf, (h.fits site bucket hb).filed⟩

/-! ## Every cookie in the jar -/

theorem mem_storeCookie (h : jar.WF env) (he : e ∈ jar.storeCookie env now requestIsSecure cookie) :
    e ∈ jar ∨ e.cookie = cookie := by
  rw [mem_def, entries_storeCookie, Store.mem_withSite] at he
  rcases he with he | ⟨k, -, he⟩
  · have hwf := (Store.WF.fits_bucketAt h (siteOf env.rules cookie.domain)).wf
    have happ := applySetCookie_cases hwf cookie now requestIsSecure jar.toCounters
    exact (happ.mem (mem_of_mem_holdDown he)).imp_left Store.mem_of_mem_bucketAt
  · exact Or.inl ⟨k, he⟩

theorem mem_recordAccess {context : CookieContext}
    (he : e ∈ jar.recordAccess env origin requestPath context now) :
    ∃ old ∈ jar, e.cookie = old.cookie ∧ e.creationSeq = old.creationSeq ∧
      (e.lastAccessSeq = old.lastAccessSeq ∨ e.lastAccessSeq = jar.nextAccessSeq) := by
  obtain ⟨site, he⟩ := he
  unfold Jar.recordAccess at he
  rw [Store.entries_mapSite] at he
  split at he
  · obtain ⟨old, hold, rfl⟩ := List.mem_map.mp he
    refine ⟨old, ⟨_, hold⟩, ?_⟩
    split <;> simp
  · exact ⟨e, ⟨site, he⟩, rfl, rfl, Or.inl rfl⟩

theorem mem_adopt {b : Bucket} {entry : Entry} (he : e ∈ (b.adopt entry).entries) :
    e ∈ b.entries ∨ e = entry := by
  unfold Bucket.adopt at he
  split at he
  · exact (List.mem_append.mp he).imp Bucket.mem_remove List.mem_singleton.mp
  · exact (List.mem_append.mp he).imp_right List.mem_singleton.mp

theorem mem_importRecord {record : CookieRecord} (hadm : record.isAdmitted now)
    (he : e ∈ jar.importRecord env now record) : e ∈ jar ∨ e = record.entry := by
  rw [mem_def, entries_importRecord hadm, Store.mem_withSite] at he
  rcases he with he | ⟨k, -, he⟩
  · exact (mem_adopt he).imp_left Store.mem_of_mem_bucketAt
  · exact Or.inl ⟨k, he⟩

/-- A property of cookies that both doors into the jar check holds of every cookie in it. -/
theorem preserves_forall_cookie {P : Cookie → Prop} {call : Call × SystemTime}
    (hparse : ∀ header host path secure now cookie,
      Cookie.parse env.rules header host path secure now = some cookie → P cookie)
    (hrecord : ∀ snapshot, call.1 = .importSnapshot snapshot → ∀ record ∈ snapshot,
      record.isAdmitted call.2 → P record.cookie) :
    Preserves env (fun jar => jar.WF env ∧ ∀ e ∈ jar, P e.cookie) call where
  shrinks _ _ hs h := ⟨hs.wf h.1, fun e he => h.2 e (hs.mem e he)⟩
  storeCookie jar url headers origin header cookie _ _ _ hp h := by
    refine ⟨h.1.storeCookie _ _ _, fun e he => ?_⟩
    rcases mem_storeCookie h.1 he with he | he
    · exact h.2 e he
    · exact he ▸ hparse _ _ _ _ _ _ hp
  recordAccess jar url context origin _ _ h := by
    refine ⟨h.1.recordAccess _ _ _ _, fun e he => ?_⟩
    obtain ⟨old, hold, hcookie, -⟩ := mem_recordAccess he
    exact hcookie ▸ h.2 old hold
  importRecord jar snapshot record hcall hmem hadm h := by
    refine ⟨h.1.importRecord _ _, fun e he => ?_⟩
    rcases mem_importRecord hadm he with he | rfl
    · exact h.2 e he
    · exact hrecord snapshot hcall record hmem hadm

/-- The same of every jar a run reaches. -/
theorem forall_cookie_run {P : Cookie → Prop} (limits : JarLimits)
    {calls : List (Call × SystemTime)}
    (hparse : ∀ header host path secure now cookie,
      Cookie.parse env.rules header host path secure now = some cookie → P cookie)
    (hrecord : ∀ snapshot now, (.importSnapshot snapshot, now) ∈ calls → ∀ record ∈ snapshot,
      record.isAdmitted now → P record.cookie) :
    ∀ e ∈ (Jar.withLimits limits).run env calls, P e.cookie := by
  have hinv : ∀ call ∈ calls,
      Preserves env (fun jar => jar.WF env ∧ ∀ e ∈ jar, P e.cookie) call := by
    rintro ⟨call, now⟩ hcall
    apply preserves_forall_cookie hparse
    rintro snapshot rfl
    exact hrecord snapshot now hcall
  have hempty : ∀ e ∈ Jar.withLimits limits, P e.cookie :=
    fun e he => absurd he (not_mem_withLimits limits e)
  exact (Preserves.run hinv ⟨wf_withLimits limits, hempty⟩).2

end Jar

end Chromulate.Cookies
