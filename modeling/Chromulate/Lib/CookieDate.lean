import Chromulate.Lib.Calendar
import Chromulate.Lib.Text
import Chromulate.Lib.Time

/-!
# The cookie-date algorithm

Section 5.1.1 of RFC 6265. The text is cut into date-tokens at the delimiters; the tokens are taken
in order, each for the first of a time, a day of the month, a month and a year that is still looked
for and whose production it matches. The date is the instant of the four in UTC, unless one is
missing or out of its range or the month has no such day.

A production of digits ends where the digits end: `digits_eq_some_iff` says that `digits least most`
is `least*mostDIGIT`, followed by the end of the token or by a non-digit and any octets.
-/

namespace Chromulate.CookieDate

/-- `delimiter`. -/
def isDelimiter (c : Char) : Bool :=
  c.toNat = 0x09 || (0x20 ≤ c.toNat && c.toNat ≤ 0x2F) || (0x3B ≤ c.toNat && c.toNat ≤ 0x40) ||
    (0x5B ≤ c.toNat && c.toNat ≤ 0x60) || (0x7B ≤ c.toNat && c.toNat ≤ 0x7E)

/-- The date-tokens: the longest runs of characters that are not delimiters. -/
def dateTokens (s : Str) : List Str := (s.splitOnP isDelimiter).filter fun token => token ≠ []

/-! ## Productions -/

/-- `least*mostDIGIT`, not followed by a digit: the number, and what follows it. -/
def digits (least most : Nat) (token : Str) : Option (Nat × Str) :=
  let run := token.takeWhile Char.isDigit
  if least ≤ run.length ∧ run.length ≤ most then
    some (Text.digitsValue run, token.dropWhile Char.isDigit)
  else none

/-- What follows a colon. -/
def colon : Str → Option Str
  | ':' :: rest => some rest
  | _ => none

/-- `time`: three fields of one or two digits with colons between them. -/
def time (token : Str) : Option (Nat × Nat × Nat) := do
  let (hour, rest) ← digits 1 2 token
  let (minute, rest) ← digits 1 2 (← colon rest)
  let (second, _) ← digits 1 2 (← colon rest)
  return (hour, minute, second)

/-- `day-of-month`. -/
def dayOfMonth (token : Str) : Option Nat := (digits 1 2 token).map Prod.fst

def monthNames : List Str :=
  ["jan", "feb", "mar", "apr", "may", "jun", "jul", "aug", "sep", "oct", "nov", "dec"].map
    String.toList

/-- `month`: a token that begins with the name of one, in any case. -/
def month (token : Str) : Option Nat :=
  (monthNames.findIdx? fun name => name.isPrefixOf (Text.toAsciiLowercase token)).map (· + 1)

def year (token : Str) : Option Nat := (digits 2 4 token).map Prod.fst

/-! ## The algorithm -/

/-- What has been found. -/
structure Fields where
  time : Option (Nat × Nat × Nat)
  day : Option Nat
  month : Option Nat
  year : Option Nat

/-- Something that is still looked for, and a token that is it. -/
def missing {α : Type*} (found matched : Option α) : Option α :=
  if found.isNone then matched else none

/-- One date-token. -/
def Fields.take (fields : Fields) (token : Str) : Fields :=
  match missing fields.time (CookieDate.time token) with
  | some time => { fields with time := some time }
  | none =>
    match missing fields.day (dayOfMonth token) with
    | some day => { fields with day := some day }
    | none =>
      match missing fields.month (CookieDate.month token) with
      | some month => { fields with month := some month }
      | none => { fields with year := fields.year <|> CookieDate.year token }

def read (s : Str) : Fields := (dateTokens s).foldl Fields.take ⟨none, none, none, none⟩

/-- Two digits stand for a year of the twentieth century from 70 on, else of the twenty-first. -/
def fullYear (year : Nat) : Nat :=
  if 70 ≤ year ∧ year ≤ 99 then year + 1900 else if year ≤ 69 then year + 2000 else year

/-- The seconds from the Unix epoch to a time of a day. -/
def epochSecond (year month day hour minute second : Nat) : Int :=
  ((Calendar.dayNumber year month day : Int) - Calendar.dayNumber 1970 1 1) * 86400 +
    hour * 3600 + minute * 60 + second

/-- The whole algorithm. -/
def parse (s : Str) : Option SystemTime := do
  let fields := read s
  let (hour, minute, second) ← fields.time
  let day ← fields.day
  let month ← fields.month
  let year := fullYear (← fields.year)
  if day < 1 ∨ day > 31 ∨ year < 1601 ∨ hour > 23 ∨ minute > 59 ∨ second > 59 then none
  else if Calendar.Occurs year month day then
    some (SystemTime.ofEpochSeconds (epochSecond year month day hour minute second))
  else none

/-! ## Runs of digits -/

/-- The run of digits that a text begins with ends at a text that does not begin with one. -/
theorem takeWhile_append {run rest : Str} (hrun : ∀ c ∈ run, c.isDigit)
    (hrest : ∀ c, rest.head? = some c → c.isDigit = false) :
    (run ++ rest).takeWhile Char.isDigit = run ∧ (run ++ rest).dropWhile Char.isDigit = rest := by
  have hempty : rest.takeWhile Char.isDigit = [] ∧ rest.dropWhile Char.isDigit = rest := by
    cases rest with
    | nil => exact ⟨rfl, rfl⟩
    | cons c rest =>
      have hc := hrest c rfl
      simp [hc]
  rw [List.takeWhile_append_of_pos hrun, List.dropWhile_append_of_pos hrun, hempty.1, hempty.2,
    List.append_nil]
  exact ⟨rfl, rfl⟩

theorem digits_eq_some_iff {least most value : Nat} {token rest : Str} :
    digits least most token = some (value, rest) ↔
      ∃ run, token = run ++ rest ∧ (∀ c ∈ run, c.isDigit) ∧ least ≤ run.length ∧
        run.length ≤ most ∧ (∀ c, rest.head? = some c → c.isDigit = false) ∧
        value = Text.digitsValue run := by
  constructor
  · intro h
    rw [digits] at h
    split_ifs at h with hlength
    cases h
    refine ⟨_, (List.takeWhile_append_dropWhile).symm, fun c hc => List.mem_takeWhile_imp hc,
      hlength.1, hlength.2, fun c hc => ?_, rfl⟩
    have hnot := List.head?_dropWhile_not Char.isDigit token
    rw [hc] at hnot
    simpa using hnot
  · rintro ⟨run, rfl, hrun, hleast, hmost, hrest, rfl⟩
    obtain ⟨htake, hdrop⟩ := takeWhile_append hrun hrest
    rw [digits, htake, hdrop, if_pos ⟨hleast, hmost⟩]

end Chromulate.CookieDate
