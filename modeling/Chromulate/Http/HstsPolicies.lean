import Chromulate.Http.Preload
import Chromulate.Lib.History

/-!
# The policies of a history

`HstsStore::record` over a history of responses. What the store holds under a name is what the last
effective header for the name left (`lookup_run`): a header that came over TLS, for a host that is
a name and no address, with a `max-age` that can be used. So `applies_to` asks whether the history
left a policy for the host or, with its subdomains, for a name above it (`refines_policies`), as
long as the store never held more than its capacity; when it would, the policies that run out first
are dropped (`evict_spec`).

A hash map yields its entries in any order, and of several policies that run out first the one that
comes first is dropped: the order is part of what is seen (`Seen`).
-/

namespace Chromulate.Http.HstsStore

open Text

open Table (Scan)

/-- A store after a history. -/
def run (store : HstsStore) (history : List Seen) : HstsStore := history.foldl recordWith store

/-! ## What a header asks for -/

/-- A directive of a header: its name in lower case, and its argument. -/
def directive (token : Str) : Str × Option Str :=
  match splitOnce '=' (trim token) with
  | some (name, argument) => (toAsciiLowercase (trim name), some (trim argument))
  | none => (toAsciiLowercase (trim token), none)

def directives (value : Str) : List (Str × Option Str) := (value.splitOn ';').map directive

/-- The number of a `max-age`, which may be quoted. -/
def seconds (argument : Str) : Option Nat :=
  parseUnsigned (2 ^ 64 - 1) (trimMatches (· == '"') argument)

def isMaxAge (d : Str × Option Str) : Bool := d.1 == "max-age".toList

def isIncludeSubdomains (d : Str × Option Str) : Bool := d.1 == "includesubdomains".toList

/-- A header has a usable `max-age`: each `max-age` has an argument and the last is a number. The
subdomains are included if some directive says so. -/
def Usable (value : Str) (asked : Directive) : Prop :=
  (∀ d ∈ directives value, isMaxAge d → d.2 ≠ none) ∧
    (∃ d argument, ((directives value).filter isMaxAge).getLast? = some d ∧
      d.2 = some argument ∧ seconds argument = some asked.maxAge) ∧
    asked.includeSubdomains = (directives value).any isIncludeSubdomains

theorem not_isIncludeSubdomains {d : Str × Option Str} (h : isMaxAge d) :
    isIncludeSubdomains d = false := by
  rw [isIncludeSubdomains, eq_of_beq h]
  decide

theorem readDirective_eq (seen : Option Nat × Bool) (token : Str) :
    readDirective seen token =
      if isMaxAge (directive token) then
        (directive token).2.map fun argument => (seconds argument, seen.2)
      else some (seen.1, seen.2 || isIncludeSubdomains (directive token)) := by
  have hpair : ∀ (name : Str) (argument : Option Str),
      (if toAsciiLowercase name = "max-age".toList then do
        let argument ← argument
        some (seconds argument, seen.2)
      else if toAsciiLowercase name = "includesubdomains".toList then some (seen.1, true)
      else some seen) =
        if isMaxAge (toAsciiLowercase name, argument) then
          argument.map fun argument => (seconds argument, seen.2)
        else
          some (seen.1, seen.2 || isIncludeSubdomains (toAsciiLowercase name, argument)) := by
    intro name argument
    simp only [isMaxAge, isIncludeSubdomains, beq_iff_eq]
    split_ifs with hmax hinclude
    · cases argument <;> rfl
    · rw [hinclude, beq_self_eq_true, Bool.or_true]
    · rw [beq_eq_false_iff_ne.mpr hinclude, Bool.or_false]
  unfold readDirective directive
  dsimp only
  cases splitOnce '=' (trim token) with
  | none => exact hpair _ none
  | some pair => exact hpair _ (some _)

theorem foldlM_readDirective_of_mem {tokens : List Str} {d : Str × Option Str}
    (hmem : d ∈ tokens.map directive) (hmax : isMaxAge d) (hnone : d.2 = none)
    (seen : Option Nat × Bool) : tokens.foldlM readDirective seen = none := by
  induction tokens generalizing seen with
  | nil => cases hmem
  | cons token tokens ih =>
    rw [List.foldlM_cons]
    rcases List.mem_cons.mp hmem with rfl | hmem
    · rw [readDirective_eq, if_pos hmax, hnone]
      rfl
    · cases readDirective seen token with
      | none => rfl
      | some next => exact ih hmem next

theorem foldlM_readDirective {tokens : List Str}
    (h : ∀ d ∈ tokens.map directive, isMaxAge d → d.2 ≠ none) (seen : Option Nat × Bool) :
    tokens.foldlM readDirective seen =
      some ((((tokens.map directive).filter isMaxAge).getLast?.map
          fun d => d.2.bind seconds).getD seen.1,
        seen.2 || (tokens.map directive).any isIncludeSubdomains) := by
  induction tokens generalizing seen with
  | nil => simp
  | cons token tokens ih =>
    rw [List.map_cons, List.forall_mem_cons] at h
    rw [List.foldlM_cons, readDirective_eq, List.map_cons, List.any_cons]
    by_cases hmax : isMaxAge (directive token)
    · cases hargument : (directive token).2 with
      | none => exact absurd hargument (h.1 hmax)
      | some argument =>
        rw [if_pos hmax, Option.map_some, Option.bind_eq_bind, Option.bind_some, ih h.2,
          List.filter_cons_of_pos hmax, List.getLast?_cons, not_isIncludeSubdomains hmax]
        cases ((tokens.map directive).filter isMaxAge).getLast? with
        | none => simp [hargument]
        | some last => simp
    · rw [if_neg hmax, Option.bind_eq_bind, Option.bind_some, ih h.2,
        List.filter_cons_of_neg hmax, Bool.or_assoc]

/-- **The reading of a header**: it gives what a usable `max-age` asks for, and nothing else. -/
theorem parse_eq_some {value : Str} {asked : Directive} :
    parse value = some asked ↔ Usable value asked := by
  by_cases hargs : ∀ d ∈ directives value, isMaxAge d → d.2 ≠ none
  · have hread := foldlM_readDirective hargs (none, false)
    rw [← directives, Bool.false_or] at hread
    rw [parse, hread, Usable, and_iff_right hargs]
    cases hlast : ((directives value).filter isMaxAge).getLast? with
    | none => simp
    | some d =>
      cases asked
      simp only [Option.map_some, Option.getD_some, Option.bind_eq_bind, Option.bind_some,
        Option.bind_eq_some_iff, Option.some.injEq, Directive.mk.injEq]
      constructor
      · rintro ⟨maxAge, ⟨argument, hargument, hseconds⟩, rfl, hinclude⟩
        exact ⟨⟨d, argument, rfl, hargument, hseconds⟩, hinclude.symm⟩
      · rintro ⟨⟨_, argument, rfl, hargument, hseconds⟩, hinclude⟩
        exact ⟨_, ⟨argument, hargument, hseconds⟩, rfl, hinclude.symm⟩
  · constructor
    · intro h
      push Not at hargs
      obtain ⟨d, hmem, hmax, hnone⟩ := hargs
      rw [parse, foldlM_readDirective_of_mem hmem hmax hnone] at h
      cases h
    · exact fun h => absurd h.1 hargs

/-! ## What a history leaves -/

/-- A header is effective for a name: it came over TLS, from a host that is the name in whatever
case and with or without the root label, that has no other empty label and is no address, and its
`max-age` can be used. -/
structure Effective (seen : Seen) (name : Str) (asked : Directive) : Prop where
  overTls : seen.overTls = true
  labels : ∀ label ∈ (withoutRoot seen.host).splitOn '.', label ≠ []
  notAddress : isIpLiteral (withoutRoot seen.host) = false
  name_eq : name = toAsciiLowercase (withoutRoot seen.host)
  usable : Usable seen.value asked

/-- What an effective header leaves of its name: a policy, or nothing with `max-age=0`. -/
def Writes (seen : Seen) (name : Str) (left : Option Policy) : Prop :=
  ∃ asked, Effective seen name asked ∧
    left = if asked.maxAge = 0 then none else some (asked.policy seen.now)

/-- The last effective header for a name left a policy. -/
def Leaves (history : List Seen) (name : Str) (policy : Policy) : Prop :=
  History.Leaves Writes history name policy

section Record

variable {store : HstsStore} {seen : Seen}

theorem recordWith_of_not_effective (h : ∀ name asked, ¬ Effective seen name asked) :
    store.recordWith seen = store := by
  unfold recordWith
  cases htls : seen.overTls with
  | false => rfl
  | true =>
    cases hname : canonicalName seen.host with
    | none => rfl
    | some name =>
      obtain ⟨rfl, hlabels⟩ := canonicalName_eq_some.mp hname
      cases haddress : isIpLiteral (withoutRoot seen.host) with
      | true => simp [haddress]
      | false =>
        cases hparse : parse seen.value with
        | none => simp
        | some asked =>
          exact absurd ⟨htls, hlabels, haddress, rfl, parse_eq_some.mp hparse⟩ (h _ asked)

/-- An effective header with `max-age=0` removes the policy of its name, any other puts one in. -/
theorem recordWith_of_effective {name : Str} {asked : Directive} (h : Effective seen name asked) :
    store.recordWith seen =
      if asked.maxAge = 0 then { store with hosts := store.hosts.erase name }
      else evict seen.scan
        { store with hosts := store.hosts.insert name (asked.policy seen.now) } seen.now := by
  have hname : canonicalName seen.host = some (withoutRoot seen.host) :=
    canonicalName_eq_some.mpr ⟨rfl, h.labels⟩
  rw [h.name_eq]
  simp only [recordWith, h.overTls, hname, h.notAddress, parse_eq_some.mpr h.usable,
    Bool.not_true, Bool.false_eq_true, if_false]

theorem capacity_recordWith : (store.recordWith seen).capacity = store.capacity := by
  by_cases h : ∃ name asked, Effective seen name asked
  · obtain ⟨name, asked, heffective⟩ := h
    rw [recordWith_of_effective heffective]
    unfold evict
    split_ifs <;> rfl
  · rw [recordWith_of_not_effective fun name asked heffective => h ⟨name, asked, heffective⟩]

end Record

theorem capacity_run (store : HstsStore) (history : List Seen) :
    (store.run history).capacity = store.capacity := by
  induction history generalizing store with
  | nil => rfl
  | cons seen history ih => exact (ih _).trans capacity_recordWith

/-- That no header of a history puts more policies into the store than its capacity. -/
def Within (store : HstsStore) (history : List Seen) : Prop :=
  ∀ front seen rest, history = front ++ seen :: rest → ∀ name asked, Effective seen name asked →
    asked.maxAge ≠ 0 →
      ((store.run front).hosts.insert name (asked.policy seen.now)).entries.length ≤
        store.capacity

variable {history : List Seen} {name host : Str} {hosts : Table Str Policy}

theorem Within.of_concat {store : HstsStore} {seen : Seen} (h : Within store (history ++ [seen])) :
    Within store history := by
  intro front other rest hhistory
  exact h front other (rest ++ [seen]) (by simp [hhistory])

theorem Writes.unique {seen : Seen} {asked : Directive} (heffective : Effective seen name asked)
    {left : Option Policy} (h : Writes seen name left) :
    left = if asked.maxAge = 0 then none else some (asked.policy seen.now) := by
  obtain ⟨other, hother, rfl⟩ := h
  have hsame : parse seen.value = some asked := parse_eq_some.mpr heffective.usable
  rw [parse_eq_some.mpr hother.usable] at hsame
  rw [Option.some.inj hsame]

/-- **The store holds what its history left.** -/
theorem lookup_run {capacity : Nat} (hwithin : Within (withCapacity capacity) history) (name : Str)
    (policy : Policy) :
    ((withCapacity capacity).run history).hosts.lookup name = some policy ↔
      Leaves history name policy := by
  induction history using List.reverseRecOn generalizing name policy with
  | nil =>
    refine iff_of_false ?_ History.not_leaves_nil
    simp [run, withCapacity]
  | append_singleton history seen ih =>
    have hrun : (withCapacity capacity).run (history ++ [seen]) =
        ((withCapacity capacity).run history).recordWith seen := by
      simp [run]
    rw [hrun, Leaves, History.leaves_concat, ← Leaves, ← ih hwithin.of_concat]
    by_cases hnone : ∀ name asked, ¬ Effective seen name asked
    · rw [recordWith_of_not_effective hnone]
      have hwrites : ∀ left, ¬ Writes seen name left := by
        rintro left ⟨asked, heffective, _⟩
        exact hnone name asked heffective
      simp [hwrites]
    · push Not at hnone
      obtain ⟨written, asked, heffective⟩ := hnone
      -- another name than the one that is written to keeps its policy
      have hother : name ≠ written → ∀ left, ¬ Writes seen name left := by
        rintro hne left ⟨other, hother, _⟩
        exact hne (hother.name_eq.trans heffective.name_eq.symm)
      have hwritten : ∀ left, Writes seen written left ↔
          left = if asked.maxAge = 0 then none else some (asked.policy seen.now) :=
        fun left => ⟨fun h => h.unique heffective, fun h => ⟨asked, heffective, h⟩⟩
      rw [recordWith_of_effective heffective]
      by_cases hzero : asked.maxAge = 0
      · rw [if_pos hzero]
        by_cases hname : name = written
        · subst hname
          simp [hwritten, hzero]
        · rw [AList.lookup_erase_ne hname]
          simp [hother hname]
      · have hlen := hwithin history seen [] rfl written asked heffective hzero
        rw [if_neg hzero, evict, if_pos]
        · by_cases hname : name = written
          · subst hname
            simp [hwritten, hzero, eq_comm]
          · rw [AList.lookup_insert_ne hname]
            simp [hother hname]
        · show _ ≤ ((withCapacity capacity).run history).capacity
          rw [capacity_run]
          exact hlen

/-! ## Over the capacity -/

/-- The policies that are kept were there, and none that is dropped runs out later. -/
structure Sheds (before after : Table Str Policy) : Prop where
  kept : ∀ host policy, after.lookup host = some policy → before.lookup host = some policy
  dropped : ∀ host policy, before.lookup host = some policy → after.lookup host = none →
    ∀ other held, after.lookup other = some held → policy.expires ≤ held.expires

theorem Sheds.refl (hosts : Table Str Policy) : Sheds hosts hosts where
  kept _ _ h := h
  dropped host policy hbefore hafter := by
    rw [hbefore] at hafter
    cases hafter

/-- The host of `min_by_key` is one of the table whose policy runs out first. -/
theorem soonest_spec {scan : Scan Str Policy} (h : soonest scan hosts = some host) :
    ∃ policy, hosts.lookup host = some policy ∧
      ∀ other held, hosts.lookup other = some held → policy.expires ≤ held.expires := by
  obtain ⟨⟨_, policy⟩, hmin, rfl⟩ := Option.map_eq_some_iff.mp h
  refine ⟨policy, Table.Scan.mem_run.mp (Select.mem_of_minByKey hmin), ?_⟩
  intro other held hheld
  have hle := Select.le_of_minByKey hmin (Table.Scan.mem_run.mpr hheld)
  exact hle

theorem exists_soonest (scan : Scan Str Policy) (h : 0 < hosts.entries.length) :
    ∃ host, soonest scan hosts = some host := by
  have hne : scan.run hosts ≠ [] := by
    rw [← List.length_pos_iff, (scan.perm hosts).length_eq]
    exact h
  obtain ⟨entry, hentry⟩ := Select.exists_minByKey (fun entry => entry.2.expires) hne
  exact ⟨entry.1, by rw [soonest, hentry, Option.map_some]⟩

/-- Once the policy that runs out first is gone, what is shed of the rest is shed of the whole. -/
theorem Sheds.of_erase {after : Table Str Policy} {policy : Policy}
    (hlookup : hosts.lookup host = some policy)
    (hleast : ∀ other held, hosts.lookup other = some held → policy.expires ≤ held.expires)
    (h : Sheds (hosts.erase host) after) : Sheds hosts after where
  kept other held hafter := (Table.lookup_erase_eq_some.mp (h.kept other held hafter)).2
  dropped other held hbefore hafter third kept hkept := by
    by_cases hother : other = host
    · subst hother
      rw [hlookup] at hbefore
      rw [← Option.some.inj hbefore]
      exact hleast third kept (Table.lookup_erase_eq_some.mp (h.kept third kept hkept)).2
    · refine h.dropped other held ?_ hafter third kept hkept
      exact Table.lookup_erase_eq_some.mpr ⟨hother, hbefore⟩

theorem dropSoonest_spec (scan : Scan Str Policy) (capacity fuel : Nat)
    (hosts : Table Str Policy) (hfuel : hosts.entries.length ≤ capacity + fuel) :
    (dropSoonest scan capacity fuel hosts).entries.length ≤ capacity ∧
      Sheds hosts (dropSoonest scan capacity fuel hosts) := by
  induction fuel generalizing hosts with
  | zero => exact ⟨hfuel, Sheds.refl hosts⟩
  | succ fuel ih =>
    rw [dropSoonest]
    split_ifs with hle
    · exact ⟨hle, Sheds.refl hosts⟩
    · have hpos : 0 < hosts.entries.length := by omega
      obtain ⟨host, hhost⟩ := exists_soonest scan hpos
      obtain ⟨policy, hlookup, hleast⟩ := soonest_spec hhost
      have hlen : hosts.entries.length = (hosts.erase host).entries.length + 1 :=
        (Table.entries_perm hlookup).length_eq
      obtain ⟨hbound, hsheds⟩ := ih (hosts.erase host) (by omega)
      rw [hhost]
      exact ⟨hbound, hsheds.of_erase hlookup hleast⟩

/-- **What is dropped over the capacity**: what has run out, and then what runs out first. -/
theorem evict_spec (scan : Scan Str Policy) (store : HstsStore) (now : SystemTime) :
    (evict scan store now).hosts.entries.length ≤ store.capacity ∧
      (∀ host policy, (evict scan store now).hosts.lookup host = some policy →
        store.hosts.lookup host = some policy) ∧
      ∀ host policy, store.hosts.lookup host = some policy → now < policy.expires →
        (evict scan store now).hosts.lookup host = none →
          ∀ other held, (evict scan store now).hosts.lookup other = some held →
            policy.expires ≤ held.expires := by
  unfold evict
  split_ifs with hle
  · have hrefl := Sheds.refl store.hosts
    exact ⟨hle, hrefl.kept, fun host policy hbefore _ => hrefl.dropped host policy hbefore⟩
  · obtain ⟨hbound, hsheds⟩ := dropSoonest_spec scan store.capacity _
      (store.hosts.retain fun _ policy => now < policy.expires) (Nat.le_add_left _ _)
    refine ⟨hbound, ?_, ?_⟩
    · intro host policy hafter
      have hretained := hsheds.kept host policy hafter
      rw [Table.lookup_retain, Option.filter_eq_some_iff] at hretained
      exact hretained.1
    · intro host policy hbefore hlive
      refine hsheds.dropped host policy ?_
      rw [Table.lookup_retain, hbefore]
      simp [hlive]

/-! ## The question -/

/-- Whether the table that was compiled in, if one was, covers a host. -/
def preloaded (table : Option Preload.Compiled) (host : Str) : Bool :=
  table.any fun table => table.covers host

/-- That a history and a preload table demand HTTPS for a host. -/
def Demanded (table : Option Preload.Compiled) (history : List Seen) (host : Str)
    (now : SystemTime) : Prop :=
  (∀ label ∈ (withoutRoot host).splitOn '.', label ≠ []) ∧
    isIpLiteral (withoutRoot host) = false ∧
    ((∃ policy, Leaves history (toAsciiLowercase (withoutRoot host)) policy ∧
        now < policy.expires) ∨
      (∃ parent policy, Above parent (withoutRoot host) ∧
        Leaves history (toAsciiLowercase parent) policy ∧
          policy.includeSubdomains = true ∧ now < policy.expires) ∨
      preloaded table host = true)

theorem covers_false_iff {store : HstsStore} {now : SystemTime} :
    store.covers now false name = true ↔
      ∃ policy, store.hosts.lookup name = some policy ∧ now < policy.expires := by
  unfold covers
  cases store.hosts.lookup name <;> simp

theorem covers_true_iff {store : HstsStore} {now : SystemTime} :
    store.covers now true name = true ↔
      ∃ policy, store.hosts.lookup name = some policy ∧
        policy.includeSubdomains = true ∧ now < policy.expires := by
  unfold covers
  cases store.hosts.lookup name <;> simp

theorem preloaded_toAsciiLowercase (table : Option Preload.Compiled)
    (h : canonicalName host = some name) :
    preloaded table (toAsciiLowercase name) = preloaded table host := by
  cases table with
  | none => rfl
  | some table => exact table.covers_toAsciiLowercase h

/-- **A store applies to the hosts for which its history and the table demand it.** -/
theorem appliesTo_run {capacity : Nat} (hwithin : Within (withCapacity capacity) history)
    (table : Option Preload.Compiled) (host : Str) (now : SystemTime) :
    ((withCapacity capacity).run history).appliesTo (preloaded table) host now = true ↔
      Demanded table history host now := by
  unfold appliesTo Demanded
  cases hname : canonicalName host with
  | none =>
    refine iff_of_false Bool.false_ne_true ?_
    rintro ⟨hlabels, _⟩
    rw [canonicalName_eq_some.mpr ⟨rfl, hlabels⟩] at hname
    cases hname
  | some name =>
    have hpreloaded := preloaded_toAsciiLowercase table hname
    obtain ⟨rfl, hlabels⟩ := canonicalName_eq_some.mp hname
    rw [and_iff_right hlabels]
    cases haddress : isIpLiteral (withoutRoot host) with
    | true => simp [haddress]
    | false =>
      have habove : (parents (toAsciiLowercase (withoutRoot host))).any
            (((withCapacity capacity).run history).covers now true) = true ↔
          ∃ parent policy, Above parent (withoutRoot host) ∧
            Leaves history (toAsciiLowercase parent) policy ∧
              policy.includeSubdomains = true ∧ now < policy.expires := by
        simp only [parents_toAsciiLowercase, List.any_map, List.any_eq_true, mem_parents,
          Function.comp_apply, covers_true_iff, lookup_run hwithin]
        simp only [exists_and_left]
      simp only [haddress, Bool.false_eq_true, if_false, Bool.or_eq_true, or_assoc, true_and,
        covers_false_iff, lookup_run hwithin, habove, hpreloaded]

/-- **The store refines a map from names to policies.** Within its capacity it applies to a host
exactly if its history and the preload table demand it. A header in plain text, one from an address
and one without a usable `max-age` change nothing, `max-age=0` removes the policy of its own name
only, and over the capacity the policies that run out first are dropped. -/
theorem refines_policies (table : Option Preload.Compiled)
    (capacity : Nat) (history : List Seen) :
    (Within (withCapacity capacity) history → ∀ host now,
      (((withCapacity capacity).run history).appliesTo (preloaded table) host now = true ↔
        Demanded table history host now)) ∧
    (∀ (store : HstsStore) (seen : Seen),
      (seen.overTls = false ∨ isIpLiteral (withoutRoot seen.host) = true ∨
        (∀ asked, ¬ Usable seen.value asked)) → store.recordWith seen = store) ∧
    (∀ (store : HstsStore) (seen : Seen) (name : Str) (asked : Directive),
      Effective seen name asked → asked.maxAge = 0 → ∀ other,
      (store.recordWith seen).hosts.lookup other =
        if other = name then none else store.hosts.lookup other) ∧
    ∀ (store : HstsStore) (seen : Seen) (name : Str) (asked : Directive),
      Effective seen name asked → asked.maxAge ≠ 0 →
      (store.recordWith seen).hosts.entries.length ≤ store.capacity ∧
      (∀ host policy, (store.recordWith seen).hosts.lookup host = some policy →
        (store.hosts.insert name (asked.policy seen.now)).lookup host = some policy) ∧
      ∀ host policy, (store.hosts.insert name (asked.policy seen.now)).lookup host = some policy →
        seen.now < policy.expires → (store.recordWith seen).hosts.lookup host = none →
          ∀ other held, (store.recordWith seen).hosts.lookup other = some held →
            policy.expires ≤ held.expires := by
  refine ⟨fun hwithin host now => appliesTo_run hwithin table host now, ?_, ?_, ?_⟩
  · intro store seen hinert
    refine recordWith_of_not_effective fun name asked heffective => ?_
    rcases hinert with htls | haddress | hunusable
    · rw [heffective.overTls] at htls
      cases htls
    · rw [heffective.notAddress] at haddress
      cases haddress
    · exact hunusable asked heffective.usable
  · intro store seen name asked heffective hzero other
    rw [recordWith_of_effective heffective, if_pos hzero]
    split_ifs with hother
    · rw [hother, AList.lookup_erase]
    · exact AList.lookup_erase_ne hother
  · intro store seen name asked heffective hzero
    rw [recordWith_of_effective heffective, if_neg hzero]
    exact evict_spec seen.scan _ seen.now

/-- A site that asks for HTTPS for itself and its subdomains. -/
def asking : Seen :=
  ⟨"Example.com".toList, "max-age=31536000; includeSubDomains".toList, true, 0, .listed⟩

/-- A host below the site is upgraded, with its root label as without; and so is one that a table
covers. -/
theorem refines_policies_asking :
    Within (withCapacity 1) [asking] ∧
      ((withCapacity 1).run [asking]).appliesTo (preloaded none) "www.example.COM.".toList 1 =
        true ∧
      ∃ table, ((withCapacity 1).run [asking]).appliesTo (preloaded (some table))
        "shop.example.app.".toList 1 = true := by
  have heffective : Effective asking "example.com".toList ⟨31536000, true⟩ :=
    ⟨rfl, by decide, by decide, by decide, parse_eq_some.mp (by decide)⟩
  have hwithin : Within (withCapacity 1) [asking] := by
    intro front seen rest hhistory name asked _ _
    cases front with
    | cons first front =>
      have hlen := congrArg List.length hhistory
      simp at hlen
    | nil => simp [run, withCapacity]
  refine ⟨hwithin, ((refines_policies none 1 [asking]).1 hwithin _ _).mpr ?_, ?_⟩
  · have hleaves : Leaves [asking] "example.com".toList (Directive.policy ⟨31536000, true⟩ 0) :=
      ⟨[], asking, [], rfl, ⟨_, heffective, rfl⟩, by simp⟩
    have habove : Above "example.COM".toList (withoutRoot "www.example.COM.".toList) :=
      ⟨"www".toList, by decide⟩
    exact ⟨by decide, by decide, Or.inr (Or.inl ⟨_, _, habove, hleaves, rfl, by decide⟩)⟩
  · obtain ⟨blob, names, hencode, -⟩ := Preload.exists_encode_sample
    have hcovers := (Preload.Compiled.covers_ofEncode hencode Preload.totalLen_sample _).mpr
      Preload.demands_sample
    exact ⟨_, ((refines_policies (some _) 1 [asking]).1 hwithin _ _).mpr
      ⟨by decide, by decide, Or.inr (Or.inr hcovers)⟩⟩

end Chromulate.Http.HstsStore
