import Chromulate.Cache.Provenance

/-!
# A response that says no-cache is not served unasked

The directive is read from the stored fields when an entry is served, so it has to survive the
way there: the stripping when the entry is made, and the merging with each `304`. Merging keeps
it until a `304` brings a `Cache-Control` of its own. Stripping loses it when `Connection` names
`Cache-Control`, and reading loses it when its line is not text. **`noCache_not_served`** is the
property for every run in which neither happens, and **`hopByHop_noCache_served`** a run in which
the first does.
-/

namespace Chromulate.Cache

open HeaderMap

/-- A response that says `no-cache` says so in a line that is text, and its `Connection` does not
name `Cache-Control`. -/
def keepsNoCache (headers : HeaderMap) : Bool :=
  isLegible headers "no-cache".toList &&
    (!decide (Carries headers "no-cache".toList) ||
      !(connectionNames headers).contains .cacheControl)

/-- A call that hands the cache no other response. -/
def Call.keepsNoCache : Call → Bool
  | .after _ _ response _ => Cache.keepsNoCache response.headers
  | _ => true

/-- Whenever a response of the chain says `no-cache`, a later one has replaced the field. -/
def NoCacheReplaced (links : List Link) : Prop :=
  ∀ front link back, links = front ++ link :: back →
    Carries link.response.headers "no-cache".toList →
    ∃ l ∈ back, containsKey l.response.headers .cacheControl

section Survival

variable {headers : HeaderMap} {xs : List Exchange} {e : CacheEntry} {origin : Link}
  {later : List Link}

theorem noCache_of_keepsNoCache (h : keepsNoCache headers)
    (hc : Carries headers "no-cache".toList) :
    HeaderName.cacheControl ∉ connectionNames headers ∧ (CacheControl.of headers).noCache := by
  simp only [keepsNoCache, Bool.and_eq_true, hc, decide_true, Bool.not_true, Bool.false_or,
    Bool.not_eq_true', List.contains_eq_mem, decide_eq_false_iff_not] at h
  exact ⟨h.2, flag_of_carries raises_noCache (by decide) h.1 hc⟩

theorem getAll_stripHopByHop_cacheControl
    (h : HeaderName.cacheControl ∉ connectionNames headers) :
    getAll (stripHopByHop headers) .cacheControl = getAll headers .cacheControl := by
  have hhop : HeaderName.cacheControl ∉ (keys headers).filter isHopByHop := by
    intro hmem
    exact absurd (List.mem_filter.mp hmem).2 (by decide)
  rw [getAll_stripHopByHop, if_neg]
  intro hmem
  rcases List.mem_append.mp hmem with hmem | hmem
  · exact hhop hmem
  · exact h hmem

theorem containsKey_of_carries {name : Str} (h : Carries headers name) :
    containsKey headers .cacheControl := by
  obtain ⟨value, hvalue, -⟩ := h
  rw [containsKey_iff]
  exact List.ne_nil_of_mem hvalue

/-- Splitting a list with one more at the end: the chosen element is that one, or the end of the
rest has one more. -/
theorem eq_append_cons_of_concat {α : Type} {l front back : List α} {x last : α}
    (h : l ++ [last] = front ++ x :: back) :
    (l = front ∧ x = last ∧ back = []) ∨
      ∃ back', back = back' ++ [last] ∧ l = front ++ x :: back' := by
  rcases List.eq_nil_or_concat back with rfl | ⟨back', y, rfl⟩
  · left
    obtain ⟨h₁, h₂⟩ := List.append_inj' h rfl
    exact ⟨h₁, (List.cons.inj h₂).1.symm, rfl⟩
  · right
    rw [List.concat_eq_append, ← List.cons_append, ← List.append_assoc] at h
    obtain ⟨h₁, h₂⟩ := List.append_inj' h rfl
    cases h₂
    exact ⟨back', by simp, h₁⟩

/-- **The directive survives** until a `304` with a `Cache-Control` of its own. -/
theorem noCache_of_derives
    (hxs : ∀ x ∈ xs, x.Holds (fun _ => True) fun answer => keepsNoCache answer.headers)
    (h : Derives xs e origin later) :
    ∀ front link back, origin :: later = front ++ link :: back →
      Carries link.response.headers "no-cache".toList →
      (∀ l ∈ back, containsKey l.response.headers .cacheControl = false) →
      (CacheControl.of e.headers).noCache := by
  induction h with
  | stored hx hnames requestedAt receivedAt =>
    intro front link back hsplit hc _
    rcases eq_append_cons_of_concat (l := []) hsplit with ⟨-, rfl, -⟩ | ⟨back', -, hnil⟩
    · obtain ⟨hconn, hflag⟩ := noCache_of_keepsNoCache ((hxs _ hx).answer _ _ _ rfl) hc
      rw [CacheControl.of_congr (getAll_stripHopByHop_cacheControl hconn)]
      exact hflag
    · simp at hnil
  | @refreshed e origin later request url response frames body _ hx _ requestedAt receivedAt ih =>
    intro front link back hsplit hc hback
    have hall := e.getAll_refreshed response.headers requestedAt receivedAt .cacheControl
    rw [replaces_cacheControl] at hall
    rw [← List.cons_append] at hsplit
    rcases eq_append_cons_of_concat hsplit with ⟨-, rfl, -⟩ | ⟨back', rfl, hrest⟩
    · -- the `304` itself says `no-cache`, and its field is the entry's now
      rw [if_pos (containsKey_of_carries hc)] at hall
      rw [CacheControl.of_congr hall]
      exact (noCache_of_keepsNoCache ((hxs _ hx).answer _ _ _ rfl) hc).2
    · -- the `304` came later and brought no `Cache-Control`
      have hlast := hback _ (List.mem_append_right _ (List.mem_singleton_self _))
      rw [if_neg (by simp [hlast])] at hall
      rw [CacheControl.of_congr hall]
      exact ih front link back' hrest hc fun l hl => hback l (List.mem_append_left _ hl)

end Survival

/-- **A response that says `no-cache` is not served unasked.** In every run whose responses keep
the directive where the cache looks for it, an entry is served as a hit only if every response it
was made of that says `no-cache` was followed by a `304` with a `Cache-Control` of its own. -/
theorem noCache_not_served (env : Env) (limits : MemoryLimits) (config : CacheConfig)
    (calls : List Call) (hcalls : ∀ call ∈ calls, call.keepsNoCache) (request : Request)
    (url : Url) (now : SystemTime) (reply : Reply)
    (h : (((World.new limits config).run env calls).cache.before env request url now).served =
      some reply) :
    ∃ e, (((World.new limits config).run env calls).cache.select env (CacheKey.new .get url)
        request.headers).1 = some e ∧
      reply = toResponse e (currentAge e now) .hit ∧
      (∃ origin later,
        Derives ((World.new limits config).run env calls).exchanges e origin later) ∧
      ∀ origin later, Derives ((World.new limits config).run env calls).exchanges e origin later →
        NoCacheReplaced (origin :: later) := by
  obtain ⟨e, hselect, hreply, hfresh⟩ := (before_spec env _ request url now).served reply h
  have hsound : Sound env ((World.new limits config).run env calls) :=
    sound_run (sound_new limits config) calls
  obtain ⟨origin, later, hheld⟩ := hsound.stored _ e (mem_of_select hselect).1
  have hxs : ∀ x ∈ ((World.new limits config).run env calls).exchanges,
      x.Holds (fun _ => True) fun answer => keepsNoCache answer.headers := by
    refine World.holds_run (by rintro x ⟨⟩) fun call hcall => ?_
    have hkeeps := hcalls call hcall
    cases call <;> first | exact hkeeps | trivial
  refine ⟨e, hselect, hreply, ⟨origin, later, hheld.derives⟩, ?_⟩
  intro origin' later' hderives front link back hsplit hc
  by_contra hnone
  -- nothing replaced the field, so the entry still says `no-cache` and was not fresh
  have hback : ∀ l ∈ back, containsKey l.response.headers .cacheControl = false := by
    intro l hl
    by_contra htrue
    exact hnone ⟨l, hl, by simpa using htrue⟩
  have hflag := noCache_of_derives hxs hderives front link back hsplit hc hback
  rw [noCache_of_isFresh hfresh] at hflag
  cases hflag

/-- A page that says `no-cache`, until a `304` gives it ten minutes. -/
def relaxedPage (url : Url) : List Call :=
  fetch 0 url [(.cacheControl, .fromStatic "no-cache"), (.etag, .fromStatic "v1")] ++
  [.before ⟨.get, []⟩ url 0,
    .after 1 url ⟨304, .http11, [(.cacheControl, .fromStatic "max-age=600")], none⟩ 0]

/-- The relaxed page is served, because the `304` replaced its `Cache-Control`. -/
theorem relaxedPage_served :
    ∃ reply e,
      (((World.new .default .default).run .simple
        (relaxedPage (.plain "https" "example.com" "/"))).cache.before .simple ⟨.get, []⟩
        (.plain "https" "example.com" "/") 0).served = some reply ∧
      reply = toResponse e (currentAge e 0) .hit ∧
      ∀ origin later, Derives ((World.new .default .default).run .simple
        (relaxedPage (.plain "https" "example.com" "/"))).exchanges e origin later →
        NoCacheReplaced (origin :: later) := by
  have hserved : (((World.new .default .default).run .simple
      (relaxedPage (.plain "https" "example.com" "/"))).cache.before .simple ⟨.get, []⟩
      (.plain "https" "example.com" "/") 0).served.isSome := by
    decide +kernel
  obtain ⟨reply, hreply⟩ := Option.isSome_iff_exists.mp hserved
  obtain ⟨e, -, htoResponse, -, hreplaced⟩ := noCache_not_served .simple .default .default
    (relaxedPage (.plain "https" "example.com" "/")) (by decide) _ _ _ reply hreply
  exact ⟨reply, e, hreply, htoResponse, hreplaced⟩

/-- Fields that say `no-cache` for ten minutes, under a `Connection` that names the field. -/
def hopByHopNoCache : HeaderMap :=
  [(.cacheControl, .fromStatic "no-cache"), (.connection, .fromStatic "cache-control"),
    (.expires, .fromStatic "Thu, 01 Jan 1970 00:10:00 GMT")]

/-- **A response that says `no-cache` is served without asking the origin**, when its
`Connection` names `Cache-Control`. -/
theorem hopByHop_noCache_served :
    Carries hopByHopNoCache "no-cache".toList ∧
    (((World.new .default .default).run .simple
      (fetch 0 (.plain "https" "example.com" "/") hopByHopNoCache)).cache.before .simple
      ⟨.get, []⟩ (.plain "https" "example.com" "/") 0).served.any
      (fun reply => reply.status = 200 ∧ reply.cacheStatus = some .hit) = true := by
  decide +kernel

end Chromulate.Cache
