import Chromulate.Http.Hsts

/-!
# A longer `max-age`

What recording `max-age` with one run of digits or another leaves for a host, in a store that has
room. The digits pass two limits on their way. Sixty-four bits of them can be read at all, and a
header with more is ignored. What is read is added to the clock, and where the sum is no instant any
more the policy ends at `farFuture` instead, which is earlier than most instants there are.

**Theorem (`protects_iff`).** More seconds protect a host no less exactly if the host is a name, the
digits can be read, and the two sums are not on different sides of the second limit with
`farFuture` between them.
-/

namespace Chromulate.Http.HstsStore

open Text

/-- The header that asks for so many seconds. -/
def maxAge (digits : Str) : Str := "max-age=".toList ++ digits

/-- The name that the policy of a host is kept under; an address has none. -/
def policyName (host : Str) : Option Str :=
  match canonicalName host with
  | none => none
  | some name => if isIpLiteral name then none else some (toAsciiLowercase name)

/-- The policy that the header leaves for a host. -/
def left (store : HstsStore) (host digits : Str) (now : SystemTime) : Option Policy :=
  (policyName host).bind (store.record host (maxAge digits) true now).hosts.lookup

/-- In every store with room, both headers leave a policy that has not run out, and that of the
second runs out no earlier. -/
def Protects (host : Str) (now : SystemTime) (less more : Str) : Prop :=
  ∀ store : HstsStore, store.hosts.entries.length < store.capacity →
    ∃ policy longer, store.left host less now = some policy ∧
      store.left host more now = some longer ∧
      now < policy.expires ∧ now < longer.expires ∧ policy.expires ≤ longer.expires

/-- When a policy of so many seconds runs out. -/
def expiry (now : SystemTime) (seconds : Nat) : SystemTime :=
  (SystemTime.checkedAdd now (Duration.fromSecs seconds)).getD farFuture

theorem parse_maxAge {digits : Str} (h : isDigits digits) :
    parse (maxAge digits) =
      if digitsValue digits < 2 ^ 64 then some ⟨digitsValue digits, false⟩
      else none := by
  have hdigit := isDigit_of_mem h
  have hother : ∀ c : Char, c.isDigit = false → c ∉ "max-age=".toList → c ∉ maxAge digits := by
    intro c hc hfront hmem
    rcases List.mem_append.mp hmem with hmem | hmem
    · exact hfront hmem
    · rw [hdigit c hmem] at hc
      cases hc
  have hsplit : (maxAge digits).splitOn ';' = [maxAge digits] := by
    apply List.splitOnP_eq_singleton
    intro c hc
    rw [beq_eq_false_iff_ne]
    rintro rfl
    exact hother ';' (by decide) (by decide) hc
  have htrim : trim (maxAge digits) = maxAge digits := by
    apply trimMatches_of_forall
    intro c hc
    rcases List.mem_append.mp hc with hc | hc
    · have hplain : "max-age=".toList.all (fun c => !isWhitespace c) = true := by decide
      simpa using List.all_eq_true.mp hplain c hc
    · exact not_isWhitespace_of_isDigit (hdigit c hc)
  have hpair : splitOnce '=' (maxAge digits) = some ("max-age".toList, digits) :=
    splitOnce_eq_some.mpr ⟨rfl, by decide⟩
  have hquotes : trimMatches (· == '"') digits = digits := by
    apply trimMatches_of_forall
    intro c hc
    rw [beq_eq_false_iff_ne]
    rintro rfl
    exact absurd (hdigit _ hc) (by decide)
  have hname : toAsciiLowercase (trim "max-age".toList) = "max-age".toList := by decide
  simp only [parse, hsplit, List.foldlM_cons, List.foldlM_nil, readDirective, htrim, hpair, hname,
    if_true, trim_digits h, hquotes, parseUnsigned_of_isDigits h, Option.bind_eq_bind,
    Option.bind_some, Option.pure_def]
  by_cases hfits : digitsValue digits < 2 ^ 64
  · rw [if_pos (by omega), if_pos hfits, Option.bind_some]
  · rw [if_neg (by omega), if_neg hfits, Option.bind_none]

section Left

variable {store : HstsStore} {host name digits : Str} (now : SystemTime)

theorem policyName_eq_some :
    policyName host = some name ↔
      ∃ canonical, canonicalName host = some canonical ∧ isIpLiteral canonical = false ∧
        toAsciiLowercase canonical = name := by
  unfold policyName
  cases canonicalName host with
  | none => simp
  | some canonical => cases isIpLiteral canonical <;> simp

theorem left_of_fits (hname : policyName host = some name) (hdigits : isDigits digits)
    (hpos : 0 < digitsValue digits) (hfits : digitsValue digits < 2 ^ 64)
    (hroom : store.hosts.entries.length < store.capacity) :
    store.left host digits now = some ⟨expiry now (digitsValue digits), false⟩ := by
  obtain ⟨canonical, hcanonical, hliteral, rfl⟩ := policyName_eq_some.mp hname
  have hle := (Table.length_insert_le store.hosts (toAsciiLowercase canonical)
    ⟨expiry now (digitsValue digits), false⟩).trans hroom
  rw [left, hname, Option.bind_some, record, recordWith, hcanonical, parse_maxAge hdigits,
    if_pos hfits]
  simp only [Bool.not_true, Bool.false_eq_true, if_false, hliteral, Nat.ne_of_gt hpos]
  rw [Directive.policy, ← expiry, evict, if_pos hle]
  exact AList.lookup_insert _

theorem left_of_not_fits (hname : policyName host = some name) (hdigits : isDigits digits)
    (hfits : ¬ digitsValue digits < 2 ^ 64) :
    store.left host digits now = store.hosts.lookup name := by
  obtain ⟨canonical, hcanonical, hliteral, rfl⟩ := policyName_eq_some.mp hname
  rw [left, hname, Option.bind_some, record, recordWith, hcanonical, parse_maxAge hdigits,
    if_neg hfits]
  simp [hliteral]

end Left

/-- **More seconds protect no less**, for a host that is a name, as long as the digits fit
sixty-four bits and saturation does not come between the two instants. -/
theorem protects_iff {host less more : Str} {now : SystemTime} (hless : isDigits less)
    (hmore : isDigits more) (hpos : 0 < digitsValue less)
    (hle : digitsValue less ≤ digitsValue more) :
    Protects host now less more ↔
      (policyName host).isSome ∧ digitsValue more < 2 ^ 64 ∧
        (now + Duration.fromSecs (digitsValue more) ≤ SystemTime.latest ∨
          now < farFuture ∧
            (SystemTime.latest < now + Duration.fromSecs (digitsValue less) ∨
              now + Duration.fromSecs (digitsValue less) ≤ farFuture)) := by
  have hroom : (withCapacity 1).hosts.entries.length < (withCapacity 1).capacity := by decide
  cases hname : policyName host with
  | none =>
    simp only [Option.isSome_none, Bool.false_eq_true, false_and, iff_false]
    intro h
    obtain ⟨policy, -, hleft, -⟩ := h (withCapacity 1) hroom
    rw [left, hname] at hleft
    cases hleft
  | some name =>
    rw [Option.isSome_some, and_iff_right rfl]
    by_cases hfits : digitsValue more < 2 ^ 64
    · have hsecs : Duration.fromSecs (digitsValue less) ≤
          Duration.fromSecs (digitsValue more) := Nat.mul_le_mul_right _ hle
      have hsome : 0 < Duration.fromSecs (digitsValue less) :=
        Nat.mul_pos hpos (by decide)
      have hexpiry : Protects host now less more ↔
          now < expiry now (digitsValue less) ∧ now < expiry now (digitsValue more) ∧
            expiry now (digitsValue less) ≤ expiry now (digitsValue more) := by
        have hlefts : ∀ store : HstsStore, store.hosts.entries.length < store.capacity → _ :=
          fun store hroom => And.intro
            (left_of_fits now hname hless hpos (by omega) hroom)
            (left_of_fits now hname hmore (by omega) hfits hroom)
        constructor
        · intro h
          obtain ⟨policy, longer, hpolicy, hlonger, hlive, hlive', hexpires⟩ := h _ hroom
          rw [(hlefts _ hroom).1] at hpolicy
          rw [(hlefts _ hroom).2] at hlonger
          cases hpolicy
          cases hlonger
          exact ⟨hlive, hlive', hexpires⟩
        · intro h store hroom
          exact ⟨_, _, (hlefts _ hroom).1, (hlefts _ hroom).2, h⟩
      rw [hexpiry, and_iff_right hfits]
      simp only [expiry, SystemTime.checkedAdd]
      generalize Duration.fromSecs (digitsValue less) = a at hsecs hsome ⊢
      generalize Duration.fromSecs (digitsValue more) = b at hsecs hsome ⊢
      have arith : ∀ (latest far now : Int) (a b : Nat), a ≤ b → 0 < a →
          (now < (if now + a ≤ latest then some (now + a) else none).getD far ∧
            now < (if now + b ≤ latest then some (now + b) else none).getD far ∧
            (if now + a ≤ latest then some (now + a) else none).getD far ≤
              (if now + b ≤ latest then some (now + b) else none).getD far ↔
            now + b ≤ latest ∨ now < far ∧ (latest < now + a ∨ now + a ≤ far)) := by
        intro latest far now a b hab ha
        split_ifs <;> simp only [Option.getD_some, Option.getD_none] <;> omega
      exact arith _ _ _ a b hsecs hsome
    · simp only [hfits, false_and, iff_false]
      intro h
      obtain ⟨-, longer, -, hlonger, -⟩ := h (withCapacity 1) hroom
      rw [left_of_not_fits now hname hmore hfits] at hlonger
      cases hlonger

/-- A day and a year. -/
theorem protects_year :
    Protects "a.example".toList 0 "86400".toList "31536000".toList :=
  (protects_iff (by decide) (by decide) (by decide) (by decide)).mpr
    ⟨by decide, by decide, Or.inl (by decide)⟩

/-- A year, and more seconds than sixty-four bits hold. -/
theorem unreadable_protects_less :
    ¬ Protects "a.example".toList 0 "31536000".toList "18446744073709551616".toList := by
  intro h
  obtain ⟨-, longer, -, hlonger, -⟩ := h (withCapacity 1) (by decide)
  have hname : policyName "a.example".toList = some "a.example".toList := by decide
  rw [left_of_not_fits 0 hname (by decide) (by decide)] at hlonger
  cases hlonger

end Chromulate.Http.HstsStore
