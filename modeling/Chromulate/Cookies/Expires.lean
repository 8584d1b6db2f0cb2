import Chromulate.Cookies.Date
import Chromulate.Lib.CookieDate

/-!
# The cookie-date parser beside the RFC's algorithm

`parse_cookie_date` cuts the text at the delimiters of the RFC and takes each token for the first
thing that is missing, by the same productions but for one: of a year it asks two or four digits
where the RFC has two to four. So the time, the day and the month it finds are the RFC's (`Alike`),
and what can differ is the year, which is the first of two or four digits among the tokens that the
RFC leaves over (`leftOver`). Of what it has found it then asks less: a minute may have a second 60,
and any month may have 31 days.

`parseCookieDate_eq_iff` says on which texts the two come to the same result, in terms of the tokens
and of what the RFC finds in them.
-/

namespace Chromulate.Cookies.Date

open Calendar Text

/-! ## Counting days -/

theorem dayNumber_epoch : dayNumber 1970 1 1 = 719528 := by
  have hcount := dayNumber_eq_shifted (show 1 ≤ 1970 by decide) (Nat.le_refl 1) (by decide) 1
  simp only [Nat.reduceLeDiff, if_true, shiftedDays] at hcount
  omega

variable {month : Nat} {token : Str}

/-- **`days_from_civil` counts the days.** -/
theorem daysFromCivil_eq {year day : Nat} (hyear : 1 ≤ year) (hlow : 1 ≤ month) (hhigh : month ≤ 12)
    (hday : 1 ≤ day) :
    daysFromCivil year month day = (dayNumber year month day : Int) - dayNumber 1970 1 1 := by
  have hcount := dayNumber_eq_shifted hyear hlow hhigh day
  obtain ⟨n, hn⟩ : ∃ n, n = if month ≤ 2 then year - 1 else year := ⟨_, rfl⟩
  have hshift : (if month ≤ 2 then (year : Int) - 1 else year) = n := by
    rw [hn]
    split_ifs <;> omega
  simp only [← hn, shiftedDays] at hcount
  -- The years of an era, divided apart from its multiple of 400.
  have h4 : ((n : Int) - n / 400 * 400) / 4 = n / 4 - 100 * (n / 400) := by omega
  have h100 : ((n : Int) - n / 400 * 400) / 100 = n / 100 - 4 * (n / 400) := by omega
  have hmonth : (153 * (((month : Int) + 9) % 12) + 2) / 5 =
      ((153 * ((month + 9) % 12) + 2) / 5 : Nat) := by push_cast; rfl
  rw [dayNumber_epoch]
  unfold daysFromCivil
  simp only [hshift, Int.natCast_nonneg, ge_iff_le, if_true]
  rw [Int.tdiv_eq_ediv_of_nonneg (by omega), Int.tdiv_eq_ediv_of_nonneg (by omega),
    Int.tdiv_eq_ediv_of_nonneg (by omega), Int.tdiv_eq_ediv_of_nonneg (by omega), h4, h100, hmonth]
  clear hmonth h4 h100 hn
  omega

theorem dayNumber_lt {year later : Nat} (hyear : 1 ≤ year) (hlt : year < later) (hlow : 1 ≤ month)
    (hhigh : month ≤ 12) (day : Nat) : dayNumber year month day < dayNumber later month day := by
  have hcount := dayNumber_eq_shifted hyear hlow hhigh day
  have hcount' := dayNumber_eq_shifted (Nat.le_trans hyear (Nat.le_of_lt hlt)) hlow hhigh day
  have hn : (if month ≤ 2 then year - 1 else year) < if month ≤ 2 then later - 1 else later := by
    split_ifs <;> omega
  generalize (if month ≤ 2 then year - 1 else year) = n at hcount hn
  generalize (if month ≤ 2 then later - 1 else later) = n' at hcount' hn
  simp only at hcount hcount'
  omega

/-! ## The productions -/

theorem snd_of_leadingDigits {p : Nat × Nat} (h : leadingDigits token = some p) :
    p.2 = (token.takeWhile Char.isDigit).length := by
  simp only [leadingDigits, Option.ite_none_left_eq_some, Option.map_eq_some_iff] at h
  obtain ⟨_, value, _, rfl⟩ := h
  rfl

theorem leadingDigits_of_length_le (hne : token.takeWhile Char.isDigit ≠ [])
    (h : (token.takeWhile Char.isDigit).length ≤ 4) :
    leadingDigits token = some (digitsValue (token.takeWhile Char.isDigit),
      (token.takeWhile Char.isDigit).length) := by
  have hall : ∀ c ∈ token.takeWhile Char.isDigit, c.isDigit := fun c hc => List.mem_takeWhile_imp hc
  have hdigits : isDigits (token.takeWhile Char.isDigit) := by
    simp only [isDigits, Bool.and_eq_true, List.all_eq_true]
    exact ⟨by simpa using hne, hall⟩
  have hlt := digitsValue_lt hall
  have hpow : 10 ^ (token.takeWhile Char.isDigit).length ≤ 10 ^ 4 :=
    Nat.pow_le_pow_right (by decide) h
  rw [leadingDigits, if_neg (by simpa using hne), parseUnsigned_of_isDigits hdigits,
    if_pos (by omega)]
  rfl

/-- `leading_digits` of at most two is the production of one or two digits. -/
theorem filter_leadingDigits (token : Str) :
    ((leadingDigits token).filter (·.2 ≤ 2)).map Prod.fst = CookieDate.dayOfMonth token := by
  rw [CookieDate.dayOfMonth, CookieDate.digits]
  by_cases hne : token.takeWhile Char.isDigit = []
  · have hnone : leadingDigits token = none := by simp [leadingDigits, hne]
    simp [hnone, hne]
  have hpos : 1 ≤ (token.takeWhile Char.isDigit).length := List.length_pos_iff.mpr hne
  by_cases hlength : (token.takeWhile Char.isDigit).length ≤ 2
  · rw [leadingDigits_of_length_le hne (by omega), if_pos ⟨hpos, hlength⟩]
    simp [Option.filter, hlength]
  · -- too many digits, whatever their value is
    rw [if_neg fun h => hlength h.2]
    cases hp : leadingDigits token with
    | none => rfl
    | some p =>
      rw [← snd_of_leadingDigits hp] at hlength
      simp [Option.filter, hlength]

/-- A year of two or four digits. -/
def evenYear (token : Str) : Option Nat :=
  (CookieDate.digits 2 2 token <|> CookieDate.digits 4 4 token).map Prod.fst

theorem filter_leadingDigits_even (token : Str) :
    ((leadingDigits token).filter fun p => p.2 == 2 || p.2 == 4).map Prod.fst = evenYear token := by
  have hdigits : ∀ n, CookieDate.digits n n token =
      if (token.takeWhile Char.isDigit).length = n then
        some (digitsValue (token.takeWhile Char.isDigit), token.dropWhile Char.isDigit)
      else none := by
    intro n
    simp only [CookieDate.digits, ← Nat.le_antisymm_iff, eq_comm]
  rw [evenYear, hdigits, hdigits]
  by_cases hlength : (token.takeWhile Char.isDigit).length = 2 ∨
      (token.takeWhile Char.isDigit).length = 4
  · have hne : token.takeWhile Char.isDigit ≠ [] := List.length_pos_iff.mp (by omega)
    rw [leadingDigits_of_length_le hne (by omega)]
    rcases hlength with hlength | hlength <;> simp [Option.filter, hlength]
  · obtain ⟨hne, hne'⟩ := not_or.mp hlength
    cases hp : leadingDigits token with
    | none => simp [hne, hne']
    | some p =>
      rw [← snd_of_leadingDigits hp] at hne hne'
      simp [Option.filter, hne, hne', ← snd_of_leadingDigits hp]

/-- A field of one or two digits before a colon. -/
def shortField (token : Str) : Option (Nat × Str) := do
  let (field, rest) ← splitOnce ':' token
  if isShortNumber field then some (digitsValue field, rest) else none

theorem shortField_eq_some_iff {rest : Str} {value : Nat} :
    shortField token = some (value, rest) ↔
      ∃ field, token = field ++ ':' :: rest ∧ (∀ c ∈ field, c.isDigit) ∧ 1 ≤ field.length ∧
        field.length ≤ 2 ∧ value = digitsValue field := by
  have hshort : ∀ field, isShortNumber field = true ↔
      (∀ c ∈ field, c.isDigit) ∧ 1 ≤ field.length ∧ field.length ≤ 2 := by
    intro field
    simp only [isShortNumber, isDigits, Bool.and_eq_true, List.all_eq_true,
      decide_eq_true_eq, Bool.not_eq_true', List.isEmpty_eq_false_iff, ← List.length_pos_iff]
    exact ⟨fun h => ⟨h.1.2, h.1.1, h.2⟩, fun h => ⟨⟨h.2.1, h.1⟩, h.2.2⟩⟩
  rw [shortField, Option.bind_eq_bind, Option.bind_eq_some_iff]
  constructor
  · rintro ⟨⟨field, after⟩, hsplit, hout⟩
    simp only [Option.ite_none_right_eq_some, Option.some.injEq, Prod.mk.injEq] at hout
    obtain ⟨hfield, rfl, rfl⟩ := hout
    obtain ⟨hdigits, hlow, hhigh⟩ := (hshort field).mp hfield
    exact ⟨field, (splitOnce_eq_some.mp hsplit).1, hdigits, hlow, hhigh, rfl⟩
  · rintro ⟨field, rfl, hdigits, hlow, hhigh, rfl⟩
    have hcolon : ':' ∉ field := fun h => absurd (hdigits ':' h) (by decide)
    refine ⟨(field, rest), splitOnce_eq_some.mpr ⟨rfl, hcolon⟩, ?_⟩
    simp [(hshort field).mpr ⟨hdigits, hlow, hhigh⟩]

theorem colon_eq_some_iff {text rest : Str} :
    CookieDate.colon text = some rest ↔ text = ':' :: rest := by
  unfold CookieDate.colon
  split
  · simp
  · rename_i hnot
    refine iff_of_false (by simp) ?_
    rintro rfl
    exact hnot rest rfl

theorem shortField_eq (token : Str) :
    shortField token = (CookieDate.digits 1 2 token).bind fun p =>
      (CookieDate.colon p.2).map fun rest => (p.1, rest) := by
  apply Option.ext
  rintro ⟨value, rest⟩
  rw [shortField_eq_some_iff, Option.bind_eq_some_iff]
  constructor
  · rintro ⟨field, rfl, hdigits, hlow, hhigh, rfl⟩
    refine ⟨(digitsValue field, ':' :: rest), ?_, rfl⟩
    refine CookieDate.digits_eq_some_iff.mpr ⟨field, rfl, hdigits, hlow, hhigh, ?_, rfl⟩
    intro c hc
    cases hc
    decide
  · rintro ⟨⟨value', after⟩, hread, hout⟩
    obtain ⟨rest', hcolon, hsame⟩ := Option.map_eq_some_iff.mp hout
    cases hsame
    rw [colon_eq_some_iff] at hcolon
    cases hcolon
    obtain ⟨field, rfl, hdigits, hlow, hhigh, _, rfl⟩ := CookieDate.digits_eq_some_iff.mp hread
    exact ⟨field, rfl, hdigits, hlow, hhigh, rfl⟩

/-- `try_time` looks for both colons before it looks at a field. -/
theorem tryTime_eq_shortField (token : Str) :
    tryTime token = (shortField token).bind fun (hour, rest) =>
      (shortField rest).bind fun (minute, rest) =>
        (CookieDate.dayOfMonth rest).map fun second => (hour, minute, second) := by
  have hsecond : ∀ rest (hour minute : Nat), ((leadingDigits rest).bind fun p =>
      if p.2 > 2 then none else some (hour, minute, p.1)) =
        (CookieDate.dayOfMonth rest).map fun second => (hour, minute, second) := by
    intro rest hour minute
    rw [← filter_leadingDigits]
    cases leadingDigits rest with
    | none => rfl
    | some p =>
      by_cases hlength : p.2 ≤ 2
      · simp [Option.filter, hlength]
      · simp [Option.filter, hlength]
  unfold tryTime shortField
  cases hsplit : splitOnce ':' token with
  | none => rfl
  | some p =>
    obtain ⟨hour, afterHour⟩ := p
    cases hsplit' : splitOnce ':' afterHour with
    | none => by_cases hhour : isShortNumber hour <;> simp [hhour, hsplit']
    | some q =>
      obtain ⟨minute, rest⟩ := q
      by_cases hhour : isShortNumber hour
      · by_cases hminute : isShortNumber minute
        · simpa [hhour, hminute, hsplit'] using hsecond rest _ _
        · simp [hhour, hminute, hsplit']
      · simp [hhour, hsplit']

theorem tryTime_eq (token : Str) : tryTime token = CookieDate.time token := by
  rw [tryTime_eq_shortField, CookieDate.time]
  simp only [shortField_eq, CookieDate.dayOfMonth, Option.bind_eq_bind, Option.bind_assoc,
    Option.map_eq_bind, Function.comp_def]
  rfl

theorem monthOf_eq (token : Str) : monthOf token = CookieDate.month token := by
  have hsame : ∀ name ∈ CookieDate.monthNames, (name == toAsciiLowercase (token.take 3)) =
      name.isPrefixOf (toAsciiLowercase token) := by
    intro name hname
    have hlength : name.length = 3 := by
      have hall : CookieDate.monthNames.all fun name => name.length = 3 := by decide
      simpa using List.all_eq_true.mp hall name hname
    have hlower : toAsciiLowercase (token.take 3) = (toAsciiLowercase token).take 3 :=
      List.map_take
    rw [Bool.eq_iff_iff, beq_iff_eq, List.isPrefixOf_iff_prefix, List.prefix_iff_eq_take, hlength,
      hlower]
  have hfind : ∀ names : List Str, (∀ name ∈ names, name ∈ CookieDate.monthNames) →
      (names.findIdx? fun name => name == toAsciiLowercase (token.take 3)) =
        names.findIdx? fun name => name.isPrefixOf (toAsciiLowercase token) := by
    intro names hnames
    induction names with
    | nil => rfl
    | cons name names ih =>
      have hrest := ih fun other hother => hnames other (List.mem_cons_of_mem _ hother)
      rw [List.findIdx?_cons, List.findIdx?_cons, hsame name (hnames name List.mem_cons_self),
        hrest]
  rw [monthOf, CookieDate.month]
  exact congrArg (Option.map (· + 1)) (hfind _ fun _ h => h)

/-! ## What the loop finds -/

/-- What the loop of `parse_cookie_date` finds. -/
def found (input : Str) : Found :=
  ((input.splitOnP isDelimiter).filter fun token => !token.isEmpty).foldl Found.take {}

/-- All but the year is the same. -/
structure Alike (found : Found) (fields : CookieDate.Fields) : Prop where
  time : found.time = fields.time
  day : found.day = fields.day
  month : found.month = fields.month

/-- A token is taken as the RFC takes it, but for the year. -/
theorem take_eq (found : Found) (token : Str) :
    found.take token =
      match CookieDate.missing found.time (CookieDate.time token) with
      | some time => { found with time := some time }
      | none =>
        match CookieDate.missing found.day (CookieDate.dayOfMonth token) with
        | some day => { found with day := some day }
        | none =>
          match CookieDate.missing found.month (CookieDate.month token) with
          | some month => { found with month := some month }
          | none => { found with year := found.year <|> evenYear token } := by
  obtain ⟨time, day, month, year⟩ := found
  simp only [Found.take, ← tryTime_eq, ← monthOf_eq, ← filter_leadingDigits,
    ← filter_leadingDigits_even]
  -- a token that is taken for one thing is not looked at again
  cases time <;> cases tryTime token <;> try rfl
  all_goals cases day <;> cases (leadingDigits token).filter (·.2 ≤ 2) <;> try rfl
  all_goals cases month <;> cases monthOf token <;> try rfl
  all_goals
    cases year <;> cases (leadingDigits token).filter (fun p => p.2 == 2 || p.2 == 4) <;> rfl

theorem alike_take {found : Found} {fields : CookieDate.Fields} (h : Alike found fields)
    (token : Str) : Alike (found.take token) (fields.take token) := by
  rw [take_eq, CookieDate.Fields.take, h.time, h.day, h.month]
  cases CookieDate.missing fields.time (CookieDate.time token) with
  | some time => exact ⟨rfl, rfl, rfl⟩
  | none =>
    cases CookieDate.missing fields.day (CookieDate.dayOfMonth token) with
    | some day => exact ⟨rfl, rfl, rfl⟩
    | none =>
      cases CookieDate.missing fields.month (CookieDate.month token) <;> exact ⟨rfl, rfl, rfl⟩

/-- A token that is not taken for a time, a day or a month. -/
def leaves (fields : CookieDate.Fields) (token : Str) : Bool :=
  (CookieDate.missing fields.time (CookieDate.time token)).isNone &&
    (CookieDate.missing fields.day (CookieDate.dayOfMonth token)).isNone &&
    (CookieDate.missing fields.month (CookieDate.month token)).isNone

/-- The tokens that the RFC's algorithm takes for a year or for nothing. -/
def leftOver : CookieDate.Fields → List Str → List Str
  | _, [] => []
  | fields, token :: tokens =>
    (if leaves fields token then [token] else []) ++ leftOver (fields.take token) tokens

theorem year_take {found : Found} {fields : CookieDate.Fields} (h : Alike found fields)
    (token : Str) : (found.take token).year =
      found.year.or ((if leaves fields token then [token] else []).findSome? evenYear) := by
  rw [take_eq, leaves, ← h.time, ← h.day, ← h.month]
  split
  · simp [*]
  · split
    · simp [*]
    · split
      · simp [*]
      · simp [*, Option.orElse_eq_or]

/-- The first year of two or four digits among the tokens left over. -/
def evenYearIn (input : Str) : Option Nat :=
  (leftOver ⟨none, none, none, none⟩ (CookieDate.dateTokens input)).findSome? evenYear

/-- **What the loop finds**, in terms of what the RFC's algorithm finds and leaves over. -/
theorem alike_found (input : Str) :
    Alike (found input) (CookieDate.read input) ∧ (found input).year = evenYearIn input := by
  have htokens : ((input.splitOnP isDelimiter).filter fun token => !token.isEmpty) =
      CookieDate.dateTokens input := by
    have hdelimiter : isDelimiter = CookieDate.isDelimiter := rfl
    rw [CookieDate.dateTokens, hdelimiter]
    refine List.filter_congr fun token _ => ?_
    cases token <;> rfl
  rw [found, CookieDate.read, evenYearIn, htokens]
  have hfold : ∀ (tokens : List Str) {found fields}, Alike found fields →
      Alike (tokens.foldl Found.take found) (tokens.foldl CookieDate.Fields.take fields) ∧
        (tokens.foldl Found.take found).year =
          found.year.or ((leftOver fields tokens).findSome? evenYear) := by
    intro tokens
    induction tokens with
    | nil => exact fun h => ⟨h, Option.or_none.symm⟩
    | cons token tokens ih =>
      intro found fields h
      obtain ⟨halike, hyear⟩ := ih (alike_take h token)
      refine ⟨halike, ?_⟩
      rw [List.foldl_cons, hyear, year_take h, leftOver, List.findSome?_append, Option.or_assoc]
  exact hfold _ ⟨rfl, rfl, rfl⟩

/-! ## The two results -/

/-- A year that is found and not before 1601. -/
def admitted (year : Option Nat) : Option Nat := (year.map CookieDate.fullYear).filter (1601 ≤ ·)

/-- A year of two or four digits is there and is the RFC's, the minute has such a second and the
month such a day; or none is, and the RFC refuses the date as well. -/
def YearsAgree (second month day : Nat) : Option Nat → Option Nat → Prop
  | some year, some year' => year = year' ∧ second ≤ 59 ∧ Occurs year month day
  | some _, none => False
  | none, some year' => 59 < second ∨ ¬ Occurs year' month day
  | none, none => True

/-- The same, once a time, a day and a month are found, the second up to 60 and the day up to 31. -/
def FieldsAgree (years years' : Option Nat) :
    Option (Nat × Nat × Nat) → Option Nat → Option Nat → Prop
  | some (hour, minute, second), some day, some month =>
    hour ≤ 23 ∧ minute ≤ 59 ∧ second ≤ 60 ∧ 1 ≤ day ∧ day ≤ 31 →
      YearsAgree second month day years years'
  | _, _, _ => True

/-- The first year of two or four digits does as the RFC's year does, on what the RFC finds. -/
def Agree (input : Str) : Prop :=
  FieldsAgree (admitted (evenYearIn input)) (admitted (CookieDate.read input).year)
    (CookieDate.read input).time (CookieDate.read input).day (CookieDate.read input).month

instance (second month day : Nat) :
    ∀ year year', Decidable (YearsAgree second month day year year')
  | some _, some _ => inferInstanceAs (Decidable (_ ∧ _))
  | some _, none => inferInstanceAs (Decidable False)
  | none, some _ => inferInstanceAs (Decidable (_ ∨ _))
  | none, none => inferInstanceAs (Decidable True)

instance (years years' : Option Nat) :
    ∀ time day month, Decidable (FieldsAgree years years' time day month)
  | some (_, _, _), some _, some _ => inferInstanceAs (Decidable (_ → _))
  | some (_, _, _), some _, none => inferInstanceAs (Decidable True)
  | some (_, _, _), none, _ => inferInstanceAs (Decidable True)
  | none, _, _ => inferInstanceAs (Decidable True)

instance (input : Str) : Decidable (Agree input) :=
  inferInstanceAs (Decidable (FieldsAgree _ _ _ _ _))

theorem parseCookieDate_eq (input : Str) :
    parseCookieDate input = (found input).time.bind fun (hour, minute, second) =>
      (found input).day.bind fun day => (found input).month.bind fun month =>
        if hour ≤ 23 ∧ minute ≤ 59 ∧ second ≤ 60 ∧ 1 ≤ day ∧ day ≤ 31 then
          (admitted (found input).year).map fun (year : Nat) => SystemTime.ofEpochSeconds
            (daysFromCivil year month day * 86400 + hour * 3600 + minute * 60 + second)
        else none := by
  rw [parseCookieDate, ← found]
  cases (found input).time with
  | none => rfl
  | some time =>
  cases (found input).day with
  | none => rfl
  | some day =>
  cases (found input).month with
  | none => rfl
  | some month =>
  obtain ⟨hour, minute, second⟩ := time
  simp only [Option.bind_eq_bind, Option.bind_some]
  cases (found input).year with
  | none => simp [admitted]
  | some year =>
    have hyear : (if 70 ≤ year && year ≤ 99 then year + 1900
        else if year ≤ 69 then year + 2000 else year) = CookieDate.fullYear year := by
      simp [CookieDate.fullYear]
    simp only [Option.bind_some, hyear, admitted, Option.map_some]
    by_cases hrange : hour ≤ 23 ∧ minute ≤ 59 ∧ second ≤ 60 ∧ 1 ≤ day ∧ day ≤ 31
    · have hnot :
          ¬ ((hour > 23 || minute > 59 || second > 60 || day == 0 || day > 31) = true) := by
        simp
        omega
      rw [if_neg hnot, if_pos hrange]
      by_cases hlate : 1601 ≤ CookieDate.fullYear year
      · rw [if_neg (by omega)]
        simp [Option.filter, hlate, epochSecondsToSystemTime]
      · rw [if_pos (by omega)]
        simp [Option.filter, hlate]
    · have hout : (hour > 23 || minute > 59 || second > 60 || day == 0 || day > 31) = true := by
        simp
        omega
      rw [if_pos hout, if_neg hrange]

/-- The RFC's algorithm with its checks in the same place. -/
theorem parse_eq (input : Str) :
    CookieDate.parse input = (CookieDate.read input).time.bind fun (hour, minute, second) =>
      (CookieDate.read input).day.bind fun day => (CookieDate.read input).month.bind fun month =>
        if hour ≤ 23 ∧ minute ≤ 59 ∧ second ≤ 60 ∧ 1 ≤ day ∧ day ≤ 31 then
          ((admitted (CookieDate.read input).year).filter fun year =>
            second ≤ 59 ∧ Occurs year month day).map fun year =>
              SystemTime.ofEpochSeconds
                (CookieDate.epochSecond year month day hour minute second)
        else none := by
  rw [CookieDate.parse]
  cases (CookieDate.read input).time with
  | none => rfl
  | some time =>
  cases (CookieDate.read input).day with
  | none => rfl
  | some day =>
  cases (CookieDate.read input).month with
  | none => rfl
  | some month =>
  obtain ⟨hour, minute, second⟩ := time
  simp only [Option.bind_eq_bind, Option.bind_some]
  cases (CookieDate.read input).year with
  | none => simp [admitted]
  | some year =>
    simp only [Option.bind_some, admitted, Option.map_some]
    by_cases hrange : hour ≤ 23 ∧ minute ≤ 59 ∧ second ≤ 60 ∧ 1 ≤ day ∧ day ≤ 31
    · rw [if_pos hrange]
      by_cases hlate : 1601 ≤ CookieDate.fullYear year
      · by_cases hsecond : second ≤ 59
        · rw [if_neg (by omega)]
          by_cases hoccurs : Occurs (CookieDate.fullYear year) month day
          · simp [Option.filter, hlate, hsecond, hoccurs]
          · simp [Option.filter, hlate, hsecond, hoccurs]
        · rw [if_pos (by omega)]
          simp [Option.filter, hlate, hsecond]
      · rw [if_pos (by omega)]
        simp [Option.filter, hlate]
    · rw [if_neg hrange, if_pos (by omega)]

theorem monthOf_le (h : monthOf token = some month) : 1 ≤ month ∧ month ≤ 12 := by
  obtain ⟨index, hindex, rfl⟩ := Option.map_eq_some_iff.mp h
  obtain ⟨hlt, _⟩ := List.findIdx?_eq_some_iff_getElem.mp hindex
  have hlength : months.length = 12 := rfl
  omega

/-- A token either is taken for the month or leaves it alone. -/
theorem month_take (found : Found) (token : Str) :
    (found.take token).month = found.month ∨ (found.take token).month = monthOf token := by
  rw [take_eq, ← monthOf_eq]
  split
  · exact .inl rfl
  · split
    · exact .inl rfl
    · split
      · rename_i hmonth
        rw [CookieDate.missing] at hmonth
        split_ifs at hmonth
        exact .inr hmonth.symm
      · exact .inl rfl

theorem month_le {input : Str} (h : (found input).month = some month) : 1 ≤ month ∧ month ≤ 12 := by
  have hfold : ∀ (tokens : List Str) (found : Found),
      (∀ month, found.month = some month → 1 ≤ month ∧ month ≤ 12) →
      ∀ month, (tokens.foldl Found.take found).month = some month → 1 ≤ month ∧ month ≤ 12 := by
    intro tokens
    induction tokens with
    | nil => exact fun _ h => h
    | cons token tokens ih =>
      intro found hfound
      refine ih (found.take token) fun month hmonth => ?_
      rcases month_take found token with hsame | htaken
      · exact hfound month (hsame ▸ hmonth)
      · exact monthOf_le (htaken ▸ hmonth)
  exact hfold _ {} (fun month hmonth => by cases hmonth) month h

theorem le_of_admitted {year : Option Nat} {full : Nat} (h : admitted year = some full) :
    1601 ≤ full := by
  simpa using (Option.filter_eq_some_iff.mp h).2

/-- One month and day of two years are the same instant only if the years are the same. -/
theorem seconds_eq_iff (year year' : Nat) (hyear : 1 ≤ year) (hyear' : 1 ≤ year') (hlow : 1 ≤ month)
    (hhigh : month ≤ 12) {day : Nat} (hday : 1 ≤ day) (hour minute second : Nat) :
    SystemTime.ofEpochSeconds
        (daysFromCivil year month day * 86400 + hour * 3600 + minute * 60 + second) =
      SystemTime.ofEpochSeconds (CookieDate.epochSecond year' month day hour minute second) ↔
        year = year' := by
  have hnanos : ∀ a b : Int, SystemTime.ofEpochSeconds a = SystemTime.ofEpochSeconds b ↔ a = b := by
    intro a b
    show a * 1000000000 = b * 1000000000 ↔ a = b
    omega
  rw [hnanos, daysFromCivil_eq hyear hlow hhigh hday, CookieDate.epochSecond]
  constructor
  · intro hsame
    rcases Nat.lt_trichotomy year year' with hlt | heq | hgt
    · have := dayNumber_lt hyear hlt hlow hhigh day
      omega
    · exact heq
    · have := dayNumber_lt hyear' hgt hlow hhigh day
      omega
  · rintro rfl
    rfl

/-- **Where the cookie-date parser is the RFC's algorithm.** -/
theorem parseCookieDate_eq_iff (input : Str) :
    parseCookieDate input = CookieDate.parse input ↔ Agree input := by
  obtain ⟨halike, hyears⟩ := alike_found input
  rw [parseCookieDate_eq, parse_eq, Agree, ← halike.time, ← halike.day, ← halike.month, ← hyears]
  cases (found input).time with
  | none => exact iff_of_true (by simp) (by simp [FieldsAgree])
  | some time =>
  cases (found input).day with
  | none => exact iff_of_true (by simp) (by simp [FieldsAgree])
  | some day =>
  cases hmonth : (found input).month with
  | none => exact iff_of_true (by simp) (by simp [FieldsAgree])
  | some month =>
  obtain ⟨hour, minute, second⟩ := time
  obtain ⟨hlow, hhigh⟩ := month_le hmonth
  simp only [Option.bind_some]
  by_cases hrange : hour ≤ 23 ∧ minute ≤ 59 ∧ second ≤ 60 ∧ 1 ≤ day ∧ day ≤ 31
  · rw [if_pos hrange, if_pos hrange, FieldsAgree, forall_prop_of_true hrange]
    cases hyear : admitted (found input).year with
    | none =>
      cases admitted (CookieDate.read input).year with
      | none => exact iff_of_true (by simp) trivial
      | some year' =>
        by_cases hreal : second ≤ 59 ∧ Occurs year' month day
        · refine iff_of_false (by simp [Option.filter, hreal]) ?_
          rintro (hsecond | hnot)
          · exact absurd hreal.1 (Nat.not_le.mpr hsecond)
          · exact hnot hreal.2
        · refine iff_of_true (by simp [Option.filter, hreal]) ?_
          by_cases hsecond : second ≤ 59
          · exact .inr fun h => hreal ⟨hsecond, h⟩
          · exact .inl (Nat.not_le.mp hsecond)
    | some year =>
      cases hyear' : admitted (CookieDate.read input).year with
      | none => exact iff_of_false (by simp) id
      | some year' =>
        have hlate := le_of_admitted hyear
        have hlate' := le_of_admitted hyear'
        by_cases hreal : second ≤ 59 ∧ Occurs year' month day
        · have hsame := seconds_eq_iff year year' (by omega) (by omega) hlow hhigh
            hrange.2.2.2.1 hour minute second
          have hkept : (some year').filter (fun year => second ≤ 59 ∧ Occurs year month day) =
              some year' := by simp [Option.filter, hreal]
          rw [hkept, Option.map_some, Option.map_some, Option.some.injEq, hsame]
          constructor
          · rintro rfl
            exact ⟨rfl, hreal⟩
          · exact And.left
        · refine iff_of_false (by simp [Option.filter, hreal]) ?_
          rintro ⟨rfl, h⟩
          exact hreal h
  · rw [if_neg hrange, if_neg hrange]
    exact iff_of_true rfl fun h => absurd h hrange

/-- A date in the format of RFC 850. -/
theorem parseCookieDate_rfc850 :
    parseCookieDate "Sunday, 06-Nov-94 08:49:37 GMT".toList =
      CookieDate.parse "Sunday, 06-Nov-94 08:49:37 GMT".toList :=
  (parseCookieDate_eq_iff _).mpr (by decide +kernel)

/-- A day that February does not have, a second that the minute does not have, and a year of three
digits. -/
theorem parseCookieDate_lenient :
    parseCookieDate "Wed, 30 Feb 2022 10:00:00 GMT".toList =
        parseCookieDate "Wed, 02 Mar 2022 10:00:00 GMT".toList ∧
      CookieDate.parse "Wed, 30 Feb 2022 10:00:00 GMT".toList = none ∧
      (parseCookieDate "Fri, 01 Jul 2022 10:00:60 GMT".toList).isSome ∧
      CookieDate.parse "Fri, 01 Jul 2022 10:00:60 GMT".toList = none ∧
      parseCookieDate "Fri, 01 Jul 022 10:00:00 GMT".toList = none ∧
      (CookieDate.parse "Fri, 01 Jul 022 10:00:00 GMT".toList).isSome := by
  decide +kernel

end Chromulate.Cookies.Date
