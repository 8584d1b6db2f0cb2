import Chromulate.Cookies.Date

/-!
# HTTP dates

The strict `HTTP-date` parser of `chromulate-cache/src/date.rs`: `IMF-fixdate`, RFC 850 and
`asctime`, told apart by whether a comma follows the weekday. What is none of the three is
refused, which is how `Expires: 0` comes to mean a time in the past.
-/

namespace Chromulate.Cache.Date

open Text

/-- `days_from_civil`, the algorithm behind the cookie dates. -/
def daysFromCivil (y : Int) (m d : Nat) : Int := Cookies.Date.daysFromCivil y m d

/-- `two_digits`: one or two digits, and nothing else. -/
def twoDigits (token : Str) : Option Nat :=
  if token.isEmpty || byteLen token > 2 || !token.all Char.isDigit then none
  else parseUnsigned (2 ^ 32 - 1) token

/-- `time_of`: `HH:MM:SS`; a leap second is 60. -/
def timeOf (token : Str) : Option (Nat × Nat × Nat) := do
  match token.splitOn ':' with
  | [hour, minute, second] =>
    let hour ← twoDigits hour
    let minute ← twoDigits minute
    let second ← twoDigits second
    if hour > 23 || minute > 59 || second > 60 then none else some (hour, minute, second)
  | _ => none

/-- `month_of`: exactly three letters. -/
def monthOf (token : Str) : Option Nat :=
  if byteLen token ≠ 3 then none
  else (Cookies.Date.months.findIdx? fun m => m == toAsciiLowercase token).map (· + 1)

/-- `year_of`: two digits are read in the window from 1970, four as they stand. -/
def yearOf (token : Str) : Option Int :=
  if !token.all Char.isDigit then none
  else
    match byteLen token with
    | 2 => (parseI64 token).map fun value =>
      if value ≥ 70 then 1900 + value else 2000 + value
    | 4 => parseI64 token
    | _ => none

/-- The non-empty fields between separators. -/
def fieldsOf (isSeparator : Char → Bool) (text : Str) : List Str :=
  (text.splitOnP isSeparator).filter fun field => !field.isEmpty

/-- The day, month, year and time a date names, by the format its comma announces. -/
def components (input : Str) : Option (Str × Str × Str × Str) :=
  match splitOnce ',' input with
  | some (weekday, rest) =>
    if (trim weekday).isEmpty then none
    else
      match fieldsOf (fun c => c == '-' || c == ' ' || c == '\t') rest with
      | day :: month :: year :: time :: _ => some (day, month, year, time)
      | _ => none
  | none =>
    match fieldsOf (fun c => c == ' ' || c == '\t') input with
    | _ :: month :: day :: time :: year :: _ => some (day, month, year, time)
    | _ => none

def parseHttpDate (input : Str) : Option SystemTime := do
  let (day, month, year, time) ← components (trim input)
  let day ← twoDigits day
  let month ← monthOf month
  let year ← yearOf year
  let (hour, minute, second) ← timeOf time
  if day = 0 || day > 31 || year < 1601 then none
  else
    let seconds := daysFromCivil year month day * 86400 + hour * 3600 + minute * 60 + second
    if seconds ≥ 0 then SystemTime.checkedAdd 0 (Duration.fromSecs seconds.natAbs)
    else SystemTime.checkedSub 0 (Duration.fromSecs seconds.natAbs)

end Chromulate.Cache.Date
