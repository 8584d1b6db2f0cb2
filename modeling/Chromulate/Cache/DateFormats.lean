import Chromulate.Cache.Date
import Chromulate.Cookies.Expires

/-!
# The three HTTP-date formats, written and read

`render` writes a civil date and time in each of the three formats; the names of the days are
taken as given, since the parser looks at them no further than to find that there is one.

`parse_render` computes what `parse_http_date` makes of a rendering. Its calendar arithmetic is
right (`daysFromCivil_eq`), but of the day it asks only that it be at most 31.
-/

namespace Chromulate.Cache.Date

open Calendar Text

inductive Format where
  | imfFixdate
  | rfc850
  | asctime
  deriving DecidableEq

/-- A date and a time of day, as they are written. -/
structure Stamp where
  year : Nat
  month : Nat
  day : Nat
  hour : Nat
  minute : Nat
  second : Nat
  deriving DecidableEq

/-- What a format has room for: two digits for the day, a month with a name, a time of day, and
the years the format can tell apart. -/
structure Stamp.Writable (format : Format) (t : Stamp) : Prop where
  year : match format with
    | .rfc850 => 1970 ≤ t.year ∧ t.year ≤ 2069
    | _ => 1601 ≤ t.year ∧ t.year ≤ 9999
  month : 1 ≤ t.month ∧ t.month ≤ 12
  day : t.day < 100
  hour : t.hour < 24
  minute : t.minute < 60
  second : t.second < 60

/-- The date is one of the calendar. -/
abbrev Stamp.Occurs (t : Stamp) : Prop := Calendar.Occurs t.year t.month t.day

/-- The seconds from the epoch to a date and time, by counting days. -/
def Stamp.epochSecond (t : Stamp) : Int :=
  ((dayNumber t.year t.month t.day : Int) - dayNumber 1970 1 1) * 86400 + t.hour * 3600 +
    t.minute * 60 + t.second

def monthNames : List Str :=
  ["Jan", "Feb", "Mar", "Apr", "May", "Jun", "Jul", "Aug", "Sep", "Oct", "Nov", "Dec"].map
    String.toList

def dayNames : List Str :=
  ["Monday", "Tuesday", "Wednesday", "Thursday", "Friday", "Saturday", "Sunday"].map String.toList

def monthName (month : Nat) : Str := monthNames.getD (month - 1) []

/-- Two digits. -/
def pad2 (n : Nat) : Str := [Nat.digitChar (n / 10), Nat.digitChar (n % 10)]

/-- Four digits. -/
def pad4 (n : Nat) : Str := pad2 (n / 100) ++ pad2 (n % 100)

/-- One digit or two. -/
def unpadded (n : Nat) : Str := if n < 10 then [Nat.digitChar n] else pad2 n

def renderTime (t : Stamp) : Str := pad2 t.hour ++ ':' :: (pad2 t.minute ++ ':' :: pad2 t.second)

/-- A date with a comma: the fields are set apart by `sep`. -/
def withComma (weekday : Str) (sep : Char) (day month year time : Str) : Str :=
  weekday ++ ',' :: ' ' :: (day ++ sep :: (month ++ sep :: (year ++ ' ' :: (time ++
    " GMT".toList))))

/-- The three formats. -/
def render (format : Format) (weekday : Fin 7) (t : Stamp) : Str :=
  let name := dayNames.get weekday
  match format with
  | .imfFixdate =>
    withComma (name.take 3) ' ' (pad2 t.day) (monthName t.month) (pad4 t.year) (renderTime t)
  | .rfc850 =>
    withComma name '-' (pad2 t.day) (monthName t.month) (pad2 (t.year % 100)) (renderTime t)
  | .asctime =>
    name.take 3 ++ ' ' :: (monthName t.month ++ ' ' ::
      ((if t.day < 10 then [' '] else []) ++ (unpadded t.day ++ ' ' :: (renderTime t ++ ' ' ::
        pad4 t.year))))

example : render .imfFixdate 6 ⟨1994, 11, 6, 8, 49, 37⟩ =
    "Sun, 06 Nov 1994 08:49:37 GMT".toList := by decide

example : render .rfc850 6 ⟨1994, 11, 6, 8, 49, 37⟩ =
    "Sunday, 06-Nov-94 08:49:37 GMT".toList := by decide

example : render .asctime 6 ⟨1994, 11, 6, 8, 49, 37⟩ = "Sun Nov  6 08:49:37 1994".toList := by
  decide

/-! ## The calendar arithmetic -/

variable {month n : Nat} {c : Char} {s : Str} {t : Stamp} {format : Format}

/-- **`days_from_civil` counts the days.** -/
theorem daysFromCivil_eq {year day : Nat} (hyear : 1 ≤ year) (hlow : 1 ≤ month) (hhigh : month ≤ 12)
    (hday : 1 ≤ day) :
    daysFromCivil year month day = (dayNumber year month day : Int) - dayNumber 1970 1 1 :=
  Cookies.Date.daysFromCivil_eq hyear hlow hhigh hday

theorem daysFromCivil_bounds (year day : Nat) (hlow : 1 ≤ month) (hhigh : month ≤ 12)
    (hyear : 1 ≤ year ∧ year ≤ 9999) (hday : 1 ≤ day ∧ day ≤ 31) :
    -719528 ≤ daysFromCivil year month day ∧ daysFromCivil year month day ≤ 3000000 := by
  have hcount := dayNumber_eq_shifted hyear.1 hlow hhigh day
  have hshifted : shiftedDays ((month + 9) % 12) ≤ 337 := by
    unfold shiftedDays
    omega
  rw [daysFromCivil_eq hyear.1 hlow hhigh hday.1, Cookies.Date.dayNumber_epoch]
  have hn : (if month ≤ 2 then year - 1 else year) ≤ 9999 := by split_ifs <;> omega
  generalize (if month ≤ 2 then year - 1 else year) = n at hcount hn
  omega

/-- The instant a count of seconds names, for as far as four digits of years reach. -/
theorem ofEpochSeconds_of_le {seconds : Int} (hlow : -10 ^ 12 ≤ seconds)
    (hhigh : seconds ≤ 10 ^ 12) :
    (if seconds ≥ 0 then SystemTime.checkedAdd 0 (Duration.fromSecs seconds.natAbs)
      else SystemTime.checkedSub 0 (Duration.fromSecs seconds.natAbs)) =
      some (SystemTime.ofEpochSeconds seconds) := by
  have hcast : ((Duration.fromSecs seconds.natAbs : Nat) : Int) = seconds.natAbs * 1000000000 := by
    rw [Duration.fromSecs, Nat.cast_mul]
    rfl
  have hlatest : SystemTime.latest = 9223372036854775808 * 1000000000 - 1 := rfl
  have hearliest : SystemTime.earliest = -(9223372036854775808 * 1000000000) := rfl
  have hseconds : SystemTime.ofEpochSeconds seconds = seconds * 1000000000 := rfl
  unfold SystemTime.checkedAdd SystemTime.checkedSub
  rw [hcast, hlatest, hearliest, hseconds]
  split
  · have hfits : (0 : Int) + seconds.natAbs * 1000000000 ≤
        9223372036854775808 * 1000000000 - 1 := by omega
    have hsame : (0 : Int) + seconds.natAbs * 1000000000 = seconds * 1000000000 := by omega
    exact (if_pos hfits).trans (congrArg some hsame)
  · have hfits : -(9223372036854775808 * 1000000000) ≤
        (0 : Int) - seconds.natAbs * 1000000000 := by omega
    have hsame : (0 : Int) - seconds.natAbs * 1000000000 = seconds * 1000000000 := by omega
    exact (if_pos hfits).trans (congrArg some hsame)

/-! ## Taking a rendering apart -/

/-- Digits, letters and the colon are among these, and nothing that separates. -/
def isPlain (c : Char) : Bool := 48 ≤ c.toNat && c.toNat ≤ 122

/-- A field of a rendering. -/
def isField (s : Str) : Bool := !s.isEmpty && s.all isPlain

theorem isPlain_iff : isPlain c ↔ 48 ≤ c.toNat ∧ c.toNat ≤ 122 := by
  simp [isPlain]

theorem isField_iff : isField s ↔ s ≠ [] ∧ ∀ c ∈ s, isPlain c := by
  simp [isField]

theorem isField_append {t : Str} (hs : isField s) (ht : ∀ c ∈ t, isPlain c) : isField (s ++ t) := by
  rw [isField_iff] at hs ⊢
  refine ⟨by simp [hs.1], fun c hc => ?_⟩
  rcases List.mem_append.mp hc with hc | hc
  · exact hs.2 c hc
  · exact ht c hc

theorem ne_of_isPlain {d : Char} (hc : isPlain c) (hd : isPlain d = false) : c ≠ d := by
  rintro rfl
  rw [hc] at hd
  cases hd

theorem isWhitespace_of_isPlain (h : isPlain c) : isWhitespace c = false := by
  rw [isPlain_iff] at h
  simp only [isWhitespace, Bool.or_eq_false_iff, Bool.and_eq_false_iff,
    decide_eq_false_iff_not, beq_eq_false_iff_ne]
  omega

theorem dropWhile_of_isPlain (h : ∀ c ∈ s.head?, isPlain c) :
    s.dropWhile isWhitespace = s := by
  cases s with
  | nil => rfl
  | cons c s => rw [List.dropWhile_cons_of_neg (by simp [isWhitespace_of_isPlain (h c rfl)])]

/-- Nothing is trimmed off a text that begins and ends in a field. -/
theorem trim_eq_self (hfront : ∀ c ∈ s.head?, isPlain c) (hback : ∀ c ∈ s.getLast?, isPlain c) :
    trim s = s := by
  unfold trim trimMatches List.rdropWhile
  rw [dropWhile_of_isPlain hfront, dropWhile_of_isPlain, List.reverse_reverse]
  rwa [List.head?_reverse]

theorem trim_between {u v : Str} (hu : isField u) (hv : isField v) (m : Str) :
    trim (u ++ (m ++ v)) = u ++ (m ++ v) := by
  rw [isField_iff] at hu hv
  apply trim_eq_self
  · rw [List.head?_append_of_ne_nil u hu.1]
    exact fun c hc => hu.2 c (List.mem_of_mem_head? hc)
  · rw [List.getLast?_append_of_ne_nil _ (by simp [hv.1]), List.getLast?_append_of_ne_nil _ hv.1]
    exact fun c hc => hv.2 c (List.mem_of_getLast? hc)

section Fields

variable {isSeparator : Char → Bool} (hplain : ∀ c, isPlain c → isSeparator c = false)

include hplain

theorem fieldsOf_append_cons {field : Str} {c : Char} (hfield : isField field)
    (hc : isSeparator c) (rest : Str) :
    fieldsOf isSeparator (field ++ c :: rest) = field :: fieldsOf isSeparator rest := by
  rw [isField_iff] at hfield
  have hnone : ∀ x ∈ field, isSeparator x = false := fun x hx => hplain x (hfield.2 x hx)
  unfold fieldsOf
  rw [List.splitOnP_append_cons_of_forall_mem hnone c hc, List.filter_cons_of_pos]
  simp [hfield.1]

theorem fieldsOf_singleton {field : Str} (hfield : isField field) :
    fieldsOf isSeparator field = [field] := by
  rw [isField_iff] at hfield
  unfold fieldsOf
  rw [List.splitOnP_eq_singleton fun x hx => hplain x (hfield.2 x hx), List.filter_cons_of_pos]
  · rfl
  · simp [hfield.1]

omit hplain in
theorem fieldsOf_cons {c : Char} (hc : isSeparator c) (rest : Str) :
    fieldsOf isSeparator (c :: rest) = fieldsOf isSeparator rest := by
  unfold fieldsOf
  rw [List.splitOnP_cons_eq_if_modifyHead, if_pos hc]
  rfl

end Fields

theorem comma_not_mem {field : Str} (h : isField field) : ',' ∉ field :=
  fun hmem => ne_of_isPlain ((isField_iff.mp h).2 _ hmem) (by decide) rfl

theorem components_withComma {weekday day month year time : Str} {sep : Char}
    (hsep : sep = ' ' ∨ sep = '-') (hweekday : isField weekday) (hday : isField day)
    (hmonth : isField month) (hyear : isField year) (htime : isField time) :
    components (trim (withComma weekday sep day month year time)) =
      some (day, month, year, time) := by
  have htrim : trim (withComma weekday sep day month year time) =
      withComma weekday sep day month year time := by
    have happend : withComma weekday sep day month year time = weekday ++ ((',' :: ' ' ::
        (day ++ sep :: (month ++ sep :: (year ++ ' ' :: (time ++ [' ']))))) ++ "GMT".toList) := by
      simp [withComma]
    rw [happend]
    exact trim_between hweekday (by decide) _
  have hcomma : splitOnce ',' (withComma weekday sep day month year time) =
      some (weekday, ' ' :: (day ++ sep :: (month ++ sep :: (year ++ ' ' :: (time ++
        " GMT".toList))))) :=
    splitOnce_eq_some.mpr ⟨rfl, comma_not_mem hweekday⟩
  have hname : (trim weekday).isEmpty = false := by
    rw [isField_iff] at hweekday
    rw [trim_eq_self (fun c hc => hweekday.2 c (List.mem_of_mem_head? hc))
      fun c hc => hweekday.2 c (List.mem_of_getLast? hc)]
    simp [hweekday.1]
  have hplain : ∀ c, isPlain c → (c == '-' || c == ' ' || c == '\t') = false := by
    intro c hc
    simp [ne_of_isPlain hc (d := '-') (by decide), ne_of_isPlain hc (d := ' ') (by decide),
      ne_of_isPlain hc (d := '\t') (by decide)]
  have hsep' : (sep == '-' || sep == ' ' || sep == '\t') = true := by
    rcases hsep with rfl | rfl <;> rfl
  rw [htrim, components, hcomma]
  simp only [hname, Bool.false_eq_true, if_false]
  rw [fieldsOf_cons (by rfl), fieldsOf_append_cons hplain hday hsep',
    fieldsOf_append_cons hplain hmonth hsep', fieldsOf_append_cons hplain hyear (by rfl)]
  rw [show time ++ " GMT".toList = time ++ ' ' :: "GMT".toList from rfl,
    fieldsOf_append_cons hplain htime (by rfl)]

theorem components_asctime {weekday day month year time pad : Str} (hpad : ∀ c ∈ pad, c = ' ')
    (hweekday : isField weekday) (hday : isField day) (hmonth : isField month)
    (hyear : isField year) (htime : isField time) :
    components (trim (weekday ++ ' ' :: (month ++ ' ' :: (pad ++ (day ++ ' ' ::
      (time ++ ' ' :: year)))))) = some (day, month, year, time) := by
  have hplain : ∀ c, isPlain c → (c == ' ' || c == '\t') = false := by
    intro c hc
    simp [ne_of_isPlain hc (d := ' ') (by decide), ne_of_isPlain hc (d := '\t') (by decide)]
  have hskip : ∀ rest, fieldsOf (fun c => c == ' ' || c == '\t') (pad ++ rest) =
      fieldsOf (fun c => c == ' ' || c == '\t') rest := by
    intro rest
    induction pad with
    | nil => rfl
    | cons c pad ih =>
      rw [List.forall_mem_cons] at hpad
      rw [List.cons_append, fieldsOf_cons (by rw [hpad.1]; rfl), ih hpad.2]
  have htrim := trim_between hweekday hyear (' ' :: (month ++ ' ' :: (pad ++ (day ++ ' ' ::
    (time ++ [' '])))))
  simp only [List.cons_append, List.append_assoc, List.nil_append] at htrim
  have hcomma : splitOnce ',' (weekday ++ ' ' :: (month ++ ' ' :: (pad ++ (day ++ ' ' ::
      (time ++ ' ' :: year))))) = none := by
    rw [Option.eq_none_iff_forall_ne_some]
    intro p hp
    have hmem : ',' ∈ p.1 ++ ',' :: p.2 := List.mem_append_right _ List.mem_cons_self
    rw [← (splitOnce_eq_some.mp hp).1] at hmem
    have hpad' : ',' ∉ pad := fun h => by cases hpad _ h
    simp [comma_not_mem hweekday, comma_not_mem hmonth, comma_not_mem hday, comma_not_mem htime,
      comma_not_mem hyear, hpad'] at hmem
  rw [htrim, components, hcomma]
  simp only
  rw [fieldsOf_append_cons hplain hweekday (by rfl), fieldsOf_append_cons hplain hmonth (by rfl),
    hskip, fieldsOf_append_cons hplain hday (by rfl), fieldsOf_append_cons hplain htime (by rfl),
    fieldsOf_singleton hplain hyear]

/-! ## Reading the fields -/

theorem isField_pad2 (h : n < 100) : isField (pad2 n) := by
  have hall : ∀ n < 100, isField (pad2 n) := by decide +kernel
  exact hall n h

theorem twoDigits_pad2 (h : n < 100) : twoDigits (pad2 n) = some n := by
  have hall : ∀ n < 100, twoDigits (pad2 n) = some n := by decide +kernel
  exact hall n h

theorem isField_unpadded (h : n < 100) : isField (unpadded n) := by
  have hall : ∀ n < 100, isField (unpadded n) := by decide +kernel
  exact hall n h

theorem twoDigits_unpadded (h : n < 100) : twoDigits (unpadded n) = some n := by
  have hall : ∀ n < 100, twoDigits (unpadded n) = some n := by decide +kernel
  exact hall n h

theorem isField_monthName (hlow : 1 ≤ month) (hhigh : month ≤ 12) : isField (monthName month) := by
  interval_cases month <;> decide

theorem monthOf_monthName (hlow : 1 ≤ month) (hhigh : month ≤ 12) :
    monthOf (monthName month) = some month := by
  interval_cases month <;> decide

theorem isField_pad4 (h : n < 10000) : isField (pad4 n) :=
  isField_append (isField_pad2 (by omega)) (isField_iff.mp (isField_pad2 (by omega))).2

theorem parseI64_of_isDigits (h : isDigits s) (hmax : digitsValue s < 2 ^ 63) :
    parseI64 s = some (digitsValue s : Int) := by
  have hhead : ∀ c t, s = c :: t → c ≠ '-' ∧ c ≠ '+' := by
    rintro c t rfl
    simp only [isDigits, List.all_cons, Bool.and_eq_true] at h
    refine ⟨?_, ?_⟩ <;> rintro rfl <;> exact absurd h.2.1 (by decide)
  unfold parseI64 parseUnsigned
  split
  · rename_i t
    exact absurd rfl (hhead '-' t rfl).1
  · split
    · exact absurd rfl (hhead '+' _ rfl).2
    · rw [if_pos]
      · rfl
      · rw [h, Bool.true_and, decide_eq_true_eq]
        omega

theorem yearOf_pad4 (h : n < 10000) : yearOf (pad4 n) = some (n : Int) := by
  have hdigit : ∀ d < 10, (Nat.digitChar d).isDigit ∧ (Nat.digitChar d).utf8Size = 1 ∧
      (Nat.digitChar d).toNat = 48 + d := by decide
  have h3 := hdigit (n / 100 / 10) (by omega)
  have h2 := hdigit (n / 100 % 10) (by omega)
  have h1 := hdigit (n % 100 / 10) (by omega)
  have h0 := hdigit (n % 100 % 10) (by omega)
  have hvalue : digitsValue (pad4 n) = n := by
    simp only [digitsValue, pad4, pad2, List.cons_append, List.nil_append, List.foldl_cons,
      List.foldl_nil, h3, h2, h1, h0, show '0'.toNat = 48 from rfl]
    omega
  have hall : (pad4 n).all Char.isDigit := by
    simp only [pad4, pad2, List.cons_append, List.nil_append, List.all_cons, List.all_nil, h3, h2,
      h1, h0, Bool.and_true]
  have hlen : byteLen (pad4 n) = 4 := by
    simp only [byteLen, pad4, pad2, List.cons_append, List.nil_append, List.map_cons,
      List.map_nil, List.sum_cons, List.sum_nil, h3, h2, h1, h0]
    rfl
  unfold yearOf
  rw [hall, hlen]
  simp only [Bool.not_true, Bool.false_eq_true, if_false]
  rw [parseI64_of_isDigits, hvalue]
  · simp only [isDigits, hall, Bool.and_true]
    rfl
  · rw [hvalue]
    omega

theorem yearOf_pad2 {year : Nat} (hlow : 1970 ≤ year) (hhigh : year ≤ 2069) :
    yearOf (pad2 (year % 100)) = some (year : Int) := by
  have hall : ∀ n < 100, yearOf (pad2 n) =
      some (if 70 ≤ n then 1900 + (n : Int) else 2000 + (n : Int)) := by decide +kernel
  rw [hall _ (Nat.mod_lt _ (by decide))]
  split_ifs <;> congr 1 <;> omega

theorem timeOf_renderTime (hhour : t.hour < 24) (hminute : t.minute < 60)
    (hsecond : t.second < 60) :
    timeOf (renderTime t) = some (t.hour, t.minute, t.second) := by
  have hall : ∀ n < 100, (pad2 n).all fun c => !c == ':' := by decide +kernel
  have hcolon : ∀ n < 100, ∀ c ∈ pad2 n, (c == ':') = false := fun n hn c hc => by
    simpa using List.all_eq_true.mp (hall n hn) c hc
  have hsplit : (renderTime t).splitOn ':' = [pad2 t.hour, pad2 t.minute, pad2 t.second] := by
    unfold renderTime List.splitOn
    rw [List.splitOnP_append_cons_of_forall_mem (hcolon _ (by omega)) _ rfl,
      List.splitOnP_append_cons_of_forall_mem (hcolon _ (by omega)) _ rfl,
      List.splitOnP_eq_singleton (hcolon _ (by omega))]
  unfold timeOf
  rw [hsplit]
  simp only [twoDigits_pad2 (show t.hour < 100 by omega), twoDigits_pad2 (show t.minute < 100 by
    omega), twoDigits_pad2 (show t.second < 100 by omega), Option.bind_eq_bind, Option.bind_some]
  rw [if_neg]
  simp only [Bool.or_eq_true, decide_eq_true_eq]
  omega

theorem isField_renderTime (hhour : t.hour < 24) (hminute : t.minute < 60)
    (hsecond : t.second < 60) :
    isField (renderTime t) := by
  have hminute' := (isField_iff.mp (isField_pad2 (show t.minute < 100 by omega))).2
  have hsecond' := (isField_iff.mp (isField_pad2 (show t.second < 100 by omega))).2
  refine isField_append (isField_pad2 (by omega)) fun c hc => ?_
  rcases List.mem_cons.mp hc with rfl | hc
  · rfl
  · rcases List.mem_append.mp hc with hc | hc
    · exact hminute' c hc
    · rcases List.mem_cons.mp hc with rfl | hc
      · rfl
      · exact hsecond' c hc

/-- A rendering, taken apart. -/
theorem components_render (ht : t.Writable format) (weekday : Fin 7) :
    ∃ day year, components (trim (render format weekday t)) =
        some (day, monthName t.month, year, renderTime t) ∧
      twoDigits day = some t.day ∧ yearOf year = some (t.year : Int) := by
  have hname : ∀ weekday : Fin 7, isField (dayNames.get weekday) ∧
      isField ((dayNames.get weekday).take 3) := by decide
  have hmonth := isField_monthName ht.month.1 ht.month.2
  have htime := isField_renderTime ht.hour ht.minute ht.second
  cases format with
  | imfFixdate =>
    have hyear : t.year < 10000 := Nat.lt_succ_of_le ht.year.2
    exact ⟨pad2 t.day, pad4 t.year, components_withComma (Or.inl rfl) (hname weekday).2
      (isField_pad2 ht.day) hmonth (isField_pad4 hyear) htime, twoDigits_pad2 ht.day,
      yearOf_pad4 hyear⟩
  | rfc850 =>
    have hyear : t.year % 100 < 100 := Nat.mod_lt _ (by decide)
    exact ⟨pad2 t.day, pad2 (t.year % 100), components_withComma (Or.inr rfl) (hname weekday).1
      (isField_pad2 ht.day) hmonth (isField_pad2 hyear) htime, twoDigits_pad2 ht.day,
      yearOf_pad2 ht.year.1 ht.year.2⟩
  | asctime =>
    have hyear : t.year < 10000 := Nat.lt_succ_of_le ht.year.2
    have hpad : ∀ c ∈ (if t.day < 10 then [' '] else []), c = ' ' := by
      split <;> simp
    exact ⟨unpadded t.day, pad4 t.year, components_asctime hpad (hname weekday).2
      (isField_unpadded ht.day) hmonth (isField_pad4 hyear) htime, twoDigits_unpadded ht.day,
      yearOf_pad4 hyear⟩

theorem Stamp.Writable.year_bounds (ht : t.Writable format) : 1601 ≤ t.year ∧ t.year ≤ 9999 := by
  have hyear := ht.year
  cases format with
  | imfFixdate => exact hyear
  | rfc850 => exact ⟨Nat.le_trans (by decide) hyear.1, Nat.le_trans hyear.2 (by decide)⟩
  | asctime => exact hyear

/-- **What `parse_http_date` makes of a rendering.** -/
theorem parse_render (ht : t.Writable format) (weekday : Fin 7) :
    parseHttpDate (render format weekday t) =
      if t.day = 0 ∨ 31 < t.day then none
      else some (SystemTime.ofEpochSeconds (daysFromCivil t.year t.month t.day * 86400 +
        t.hour * 3600 + t.minute * 60 + t.second)) := by
  obtain ⟨day, year, hcomponents, hday, hyear⟩ := components_render ht weekday
  have hyears := ht.year_bounds
  have hearly : ¬ (t.year : Int) < 1601 := by omega
  unfold parseHttpDate
  rw [hcomponents]
  simp only [Option.bind_eq_bind, Option.bind_some, hday, hyear,
    monthOf_monthName ht.month.1 ht.month.2, timeOf_renderTime ht.hour ht.minute ht.second,
    Bool.or_eq_true, decide_eq_true_eq, gt_iff_lt, hearly, or_false]
  by_cases hrange : t.day = 0 ∨ 31 < t.day
  · rw [if_pos hrange, if_pos hrange]
  · rw [if_neg hrange, if_neg hrange]
    have hbounds := daysFromCivil_bounds t.year t.day ht.month.1 ht.month.2 ⟨by omega, hyears.2⟩
      (by omega)
    have hhour := ht.hour
    have hminute := ht.minute
    have hsecond := ht.second
    exact ofEpochSeconds_of_le (by omega) (by omega)

end Chromulate.Cache.Date
