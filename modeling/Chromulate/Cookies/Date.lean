import Chromulate.Lib.Text
import Chromulate.Lib.Time

/-!
# Cookie dates

The lenient `cookie-date` parser of `chromulate-cookie/src/date.rs`: the text is cut into
tokens, and the first token that looks like a time, a day, a month and a year is taken for one.
-/

namespace Chromulate.Cookies.Date

open Text

def months : List Str :=
  ["jan", "feb", "mar", "apr", "may", "jun", "jul", "aug", "sep", "oct", "nov", "dec"].map
    String.toList

/-- `is_delimiter`: tab, and the ranges around the digits and letters; `:` is not one. -/
def isDelimiter (c : Char) : Bool :=
  let n := c.toNat
  n == 0x09 || (0x20 ≤ n && n ≤ 0x2F) || (0x3B ≤ n && n ≤ 0x40) || (0x5B ≤ n && n ≤ 0x60) ||
    (0x7B ≤ n && n ≤ 0x7E)

/-- `leading_digits`: the value of the run of digits at the start, and its length. -/
def leadingDigits (token : Str) : Option (Nat × Nat) :=
  let digits := token.takeWhile Char.isDigit
  if digits.isEmpty then none
  else (parseUnsigned (2 ^ 32 - 1) digits).map fun value => (value, digits.length)

/-- One or two digits. -/
def isShortNumber (s : Str) : Bool := isDigits s && s.length ≤ 2

/-- `try_time`: `hh:mm:ss`, with whatever follows the seconds ignored. -/
def tryTime (token : Str) : Option (Nat × Nat × Nat) := do
  let (hour, afterHour) ← splitOnce ':' token
  let (minute, rest) ← splitOnce ':' afterHour
  if !isShortNumber hour || !isShortNumber minute then none
  else
    let (second, secondLen) ← leadingDigits rest
    if secondLen > 2 then none
    else some (digitsValue hour, digitsValue minute, second)

/-- `days_from_civil`: days since 1970-01-01 in the proleptic Gregorian calendar. -/
def daysFromCivil (y : Int) (m d : Nat) : Int :=
  let y := if m ≤ 2 then y - 1 else y
  let era := (if y ≥ 0 then y else y - 399).tdiv 400
  let yoe := y - era * 400
  let mp : Int := (m + 9) % 12
  let doy := (153 * mp + 2).tdiv 5 + d - 1
  let doe := yoe * 365 + yoe.tdiv 4 - yoe.tdiv 100 + doy
  era * 146097 + doe - 719468

def epochSecondsToSystemTime (seconds : Int) : SystemTime := SystemTime.ofEpochSeconds seconds

/-- What the tokens seen so far have been taken for. -/
structure Found where
  time : Option (Nat × Nat × Nat) := none
  day : Option Nat := none
  month : Option Nat := none
  year : Option Nat := none

/-- The month a token names by its first three letters. -/
def monthOf (token : Str) : Option Nat :=
  (months.findIdx? fun m => m == toAsciiLowercase (token.take 3)).map (· + 1)

/-- One token of the loop: the first thing still missing that it can be. -/
def Found.take (found : Found) (token : Str) : Found :=
  match found.time, tryTime token with
  | none, some time => { found with time := some time }
  | _, _ =>
    match found.day, (leadingDigits token).filter (·.2 ≤ 2) with
    | none, some (value, _) => { found with day := some value }
    | _, _ =>
      match found.month, monthOf token with
      | none, some month => { found with month := some month }
      | _, _ =>
        match found.year, (leadingDigits token).filter fun p => p.2 == 2 || p.2 == 4 with
        | none, some (value, _) => { found with year := some value }
        | _, _ => found

def parseCookieDate (input : Str) : Option SystemTime := do
  let tokens := (input.splitOnP isDelimiter).filter fun t => !t.isEmpty
  let found := tokens.foldl Found.take {}
  let (hour, minute, second) ← found.time
  let day ← found.day
  let month ← found.month
  let year ← found.year
  if hour > 23 || minute > 59 || second > 60 || day == 0 || day > 31 then none
  else
    let year :=
      if 70 ≤ year && year ≤ 99 then year + 1900 else if year ≤ 69 then year + 2000 else year
    if year < 1601 then none
    else
      let days := daysFromCivil year month day
      some (epochSecondsToSystemTime (days * 86400 + hour * 3600 + minute * 60 + second))

end Chromulate.Cookies.Date
