import Chromulate.Cache.DateFormats

/-!
# HTTP dates of the adaptive controller

`chromulate-concurrency/src/adaptive/date.rs` repeats the parser of the cache for `Retry-After`.
It compares a month whole where the cache compares three bytes and the length, and is otherwise
the same: `httpDate_eq`.

**Theorem (`http_dates_right_iff`).** The two agree on every text. Of a rendering in any of the
three formats they give its second if the date occurs and refuse it if it does not, except that a
day up to 31 is accepted in every month.
-/

namespace Chromulate.Concurrency.Date

open Text

open Cache.Date (Format Stamp render parseHttpDate)

def months : List Str :=
  ["jan", "feb", "mar", "apr", "may", "jun", "jul", "aug", "sep", "oct", "nov", "dec"].map
    String.toList

def daysFromCivil (year : Int) (month day : Nat) : Int :=
  let year := if month ≤ 2 then year - 1 else year
  let era := (if year ≥ 0 then year else year - 399).tdiv 400
  let yearOfEra := year - era * 400
  let shifted : Int := (month + 9) % 12
  let dayOfYear := (153 * shifted + 2).tdiv 5 + day - 1
  let dayOfEra := yearOfEra * 365 + yearOfEra.tdiv 4 - yearOfEra.tdiv 100 + dayOfYear
  era * 146097 + dayOfEra - 719468

def twoDigits (token : Str) : Option Nat :=
  if token.isEmpty || byteLen token > 2 || !token.all Char.isDigit then none
  else parseUnsigned (2 ^ 32 - 1) token

/-- `month_of`: the whole token is compared. -/
def monthOf (token : Str) : Option Nat :=
  let lowered := toAsciiLowercase token
  (months.findIdx? fun month => month == lowered).map (· + 1)

def yearOf (token : Str) : Option Int :=
  if !token.all Char.isDigit then none
  else
    match byteLen token with
    | 2 => do
        let value ← parseI64 token
        some (if value ≥ 70 then 1900 + value else 2000 + value)
    | 4 => parseI64 token
    | _ => none

def next : List Str → Option (Str × List Str)
  | [] => none
  | item :: items => some (item, items)

def timeOf (token : Str) : Option (Nat × Nat × Nat) := do
  let (hour, parts) ← next (token.splitOn ':')
  let hour ← twoDigits hour
  let (minute, parts) ← next parts
  let minute ← twoDigits minute
  let (second, parts) ← next parts
  let second ← twoDigits second
  if (next parts).isSome then none
  else if hour > 23 || minute > 59 || second > 60 then none
  else some (hour, minute, second)

/-- The non-empty fields between separators. -/
def fieldsOf (isSeparator : Char → Bool) (text : Str) : List Str :=
  (text.splitOnP isSeparator).filter fun field => !field.isEmpty

/-- The day, month, year and time, by the format the comma announces. -/
def components (input : Str) : Option (Str × Str × Str × Str) :=
  match splitOnce ',' input with
  | some (weekday, rest) =>
    if (trim weekday).isEmpty then none
    else do
      let fields := fieldsOf (fun c => c == '-' || c == ' ' || c == '\t') rest
      let (day, fields) ← next fields
      let (month, fields) ← next fields
      let (year, fields) ← next fields
      let (time, _) ← next fields
      some (day, month, year, time)
  | none => do
      let fields := fieldsOf (fun c => c == ' ' || c == '\t') input
      let (_, fields) ← next fields
      let (month, fields) ← next fields
      let (day, fields) ← next fields
      let (time, fields) ← next fields
      let (year, _) ← next fields
      some (day, month, year, time)

def httpDate (input : Str) : Option SystemTime := do
  let (day, month, year, time) ← components (trim input)
  let day ← twoDigits day
  let month ← monthOf month
  let year ← yearOf year
  let (hour, minute, second) ← timeOf time
  if day = 0 || day > 31 || year < 1601 then none
  else
    let seconds := daysFromCivil year month day * 86400 + hour * 3600 + minute * 60 + second
    if seconds ≥ 0 then SystemTime.checkedAdd 0 (Duration.fromSecs seconds.natAbs)
    else SystemTime.checkedSub 0 (Duration.fromSecs seconds.natAbs)

/-! ## The two parsers agree -/

theorem monthOf_eq (token : Str) : monthOf token = Cache.Date.monthOf token := by
  have hlength : ∀ m ∈ months, byteLen m = 3 := by decide
  unfold Cache.Date.monthOf
  split
  · rename_i hne
    have hnone : months.findIdx? (fun m => m == toAsciiLowercase token) = none := by
      rw [List.findIdx?_eq_none_iff]
      intro m hm
      rw [beq_eq_false_iff_ne]
      rintro rfl
      exact hne ((byteLen_toAsciiLowercase token).symm.trans (hlength _ hm))
    rw [monthOf, hnone]
    rfl
  · rfl

theorem yearOf_eq (token : Str) : yearOf token = Cache.Date.yearOf token := by
  unfold yearOf Cache.Date.yearOf
  split
  · rfl
  · generalize byteLen token = length
    match length with
    | 2 => cases parseI64 token <;> rfl
    | 4 => rfl
    | 0 | 1 | 3 | _ + 5 => rfl

theorem timeOf_eq (token : Str) : timeOf token = Cache.Date.timeOf token := by
  unfold timeOf Cache.Date.timeOf
  rcases token.splitOn ':' with _ | ⟨hour, _ | ⟨minute, _ | ⟨second, _ | ⟨extra, rest⟩⟩⟩⟩
  · rfl
  · simp [next]
  · simp [next]
  · simp only [next, Option.bind_eq_bind, Option.bind_some, Option.isSome_none, Bool.false_eq_true,
      if_false]
    rfl
  · simp [next]

theorem components_eq (input : Str) : components input = Cache.Date.components input := by
  unfold components Cache.Date.components
  cases splitOnce ',' input with
  | some p =>
    simp only
    split
    · rfl
    · generalize hfields : fieldsOf (fun c => c == '-' || c == ' ' || c == '\t') p.2 = fields
      have hsame :
          Cache.Date.fieldsOf (fun c => c == '-' || c == ' ' || c == '\t') p.2 = fields :=
        hfields
      rw [hsame]
      rcases fields with _ | ⟨day, _ | ⟨month, _ | ⟨year, _ | ⟨time, rest⟩⟩⟩⟩ <;> rfl
  | none =>
    simp only
    generalize hfields : fieldsOf (fun c => c == ' ' || c == '\t') input = fields
    have hsame : Cache.Date.fieldsOf (fun c => c == ' ' || c == '\t') input = fields := hfields
    rw [hsame]
    rcases fields with _ | ⟨weekday, _ | ⟨month, _ | ⟨day, _ | ⟨time, _ | ⟨year, rest⟩⟩⟩⟩⟩ <;> rfl

/-- **The two parsers are one function.** -/
theorem httpDate_eq (input : Str) : httpDate input = parseHttpDate input := by
  unfold httpDate parseHttpDate
  simp only [components_eq, monthOf_eq, yearOf_eq, timeOf_eq]
  rfl

/-! ## Both against the calendar -/

/-- What a parser owes a rendering: the second of a date that occurs, and a refusal otherwise. -/
def Reads (parse : Str → Option SystemTime) (text : Str) (t : Stamp) : Prop :=
  parse text = if t.Occurs then some (SystemTime.ofEpochSeconds t.epochSecond) else none

/-- **The two parsers agree on every text, and are right about a rendering exactly if its day is
out of the range of every month or in that of its own.** -/
theorem http_dates_right_iff (input : Str) (format : Format) (weekday : Fin 7) {t : Stamp}
    (ht : t.Writable format) :
    httpDate input = parseHttpDate input ∧
    (Reads parseHttpDate (render format weekday t) t ∧
        Reads httpDate (render format weekday t) t ↔
      t.day = 0 ∨ 31 < t.day ∨ t.Occurs) := by
  refine ⟨httpDate_eq input, ?_⟩
  have hlength := Calendar.monthLength_le t.year t.month
  unfold Reads
  rw [httpDate_eq, and_self, Cache.Date.parse_render ht]
  by_cases hoccurs : t.Occurs
  · obtain ⟨hlow, hhigh, hfirst, hlast⟩ := hoccurs
    have hrange : ¬ (t.day = 0 ∨ 31 < t.day) := by omega
    have hyear : 1 ≤ t.year := Nat.le_trans (by decide) ht.year_bounds.1
    rw [if_neg hrange, if_pos ⟨hlow, hhigh, hfirst, hlast⟩,
      Cache.Date.daysFromCivil_eq hyear hlow hhigh hfirst]
    exact iff_of_true rfl (Or.inr (Or.inr ⟨hlow, hhigh, hfirst, hlast⟩))
  · rw [if_neg hoccurs]
    by_cases hrange : t.day = 0 ∨ 31 < t.day
    · rw [if_pos hrange]
      exact iff_of_true rfl (hrange.imp_right Or.inl)
    · rw [if_neg hrange]
      refine iff_of_false nofun ?_
      rw [← or_assoc]
      exact not_or.mpr ⟨hrange, hoccurs⟩

/-- The last day of a leap February. -/
theorem leap_day_read :
    let t : Stamp := ⟨2000, 2, 29, 12, 0, 0⟩
    httpDate (render .rfc850 1 t) = some (SystemTime.ofEpochSeconds t.epochSecond) := by
  intro t
  have hwritable : t.Writable .rfc850 := by
    constructor <;> decide
  have hoccurs : t.Occurs := by decide
  have hreads :=
    ((http_dates_right_iff [] .rfc850 1 hwritable).2.mpr (Or.inr (Or.inr hoccurs))).2
  exact hreads.trans (if_pos hoccurs)

/-- The thirty-first of February is read as the third of March. -/
theorem february_wraps_into_march :
    let t : Stamp := ⟨2026, 2, 31, 0, 0, 0⟩
    ¬ t.Occurs ∧ render .imfFixdate 1 t = "Tue, 31 Feb 2026 00:00:00 GMT".toList ∧
      parseHttpDate (render .imfFixdate 1 t) =
        parseHttpDate "Tue, 03 Mar 2026 00:00:00 GMT".toList ∧
      parseHttpDate (render .imfFixdate 1 t) ≠ none ∧
      httpDate (render .imfFixdate 1 t) ≠ none := by
  decide

end Chromulate.Concurrency.Date
