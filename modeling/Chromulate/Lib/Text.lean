import Mathlib.Data.List.DropRight
import Mathlib.Data.List.Basic
import Mathlib.Data.List.Induction
import Mathlib.Algebra.Ring.Nat

/-!
# Text

A Rust `str` is a sequence of Unicode scalar values, which is what a `List Char` is; its
length, however, counts UTF-8 bytes. This file gives the standard-library operations on text
(trimming, splitting, ASCII case, numbers) and the facts about them that say *where the
characters of a piece come from*.
-/

namespace Chromulate

/-- A Rust `str`. -/
abbrev Str := List Char

abbrev Bytes := List UInt8

namespace Text

/-! ## Operations -/

/-- `str::len`: the number of UTF-8 bytes. -/
def byteLen (s : Str) : Nat := (s.map Char.utf8Size).sum

/-- `char::is_whitespace`: the Unicode `White_Space` property. -/
def isWhitespace (c : Char) : Bool :=
  let n := c.toNat
  (9 ≤ n && n ≤ 13) || n == 0x20 || n == 0x85 || n == 0xA0 || n == 0x1680 ||
    (0x2000 ≤ n && n ≤ 0x200A) || n == 0x2028 || n == 0x2029 || n == 0x202F || n == 0x205F ||
    n == 0x3000

/-- Drop the characters satisfying `p` from both ends. -/
def trimMatches (p : Char → Bool) (s : Str) : Str := (s.dropWhile p).rdropWhile p

def trim (s : Str) : Str := trimMatches isWhitespace s

def toAsciiLowercase (s : Str) : Str := s.map Char.toLower

/-- `str::split_once`: the text before and after the first `c`. -/
def splitOnce (c : Char) : Str → Option (Str × Str)
  | [] => none
  | x :: xs =>
    if x = c then some ([], xs) else (splitOnce c xs).map fun p => (x :: p.1, p.2)

def stripPrefix (front s : Str) : Option Str := front.isPrefixOf? s

def stripSuffix (back s : Str) : Option Str := back.isSuffixOf? s

/-- `str::ends_with` for a character. -/
def endsWith (c : Char) (s : Str) : Bool := s.getLast? == some c

/-- `str::rfind` for a character, as the text before its last occurrence. -/
def beforeLast (c : Char) (s : Str) : Option Str :=
  (splitOnce c s.reverse).map fun p => p.2.reverse

/-- `[T]::join` on text. -/
def join (sep : Str) (parts : List Str) : Str := sep.intercalate parts

/-- The value of a run of decimal digits. -/
def digitsValue (s : Str) : Nat := s.foldl (fun n c => 10 * n + (c.toNat - '0'.toNat)) 0

/-- A non-empty run of decimal digits and nothing else. -/
def isDigits (s : Str) : Bool := !s.isEmpty && s.all Char.isDigit

/-- `str::parse` into an unsigned integer of at most `max`: an optional `+`, then digits. -/
def parseUnsigned (max : Nat) (s : Str) : Option Nat :=
  let digits := match s with
    | '+' :: rest => rest
    | _ => s
  if isDigits digits && digitsValue digits ≤ max then some (digitsValue digits) else none

/-- `str::parse::<i64>`: an optional sign, then digits, in range. -/
def parseI64 (s : Str) : Option Int :=
  match s with
  | '-' :: digits =>
    if isDigits digits && digitsValue digits ≤ 2 ^ 63 then some (-(digitsValue digits : Int))
    else none
  | _ => (parseUnsigned (2 ^ 63 - 1) s).map Int.ofNat

/-! ## ASCII case -/

variable {c d : Char} {p : Char → Bool} {s a b l : Str}

theorem utf8Size_of_ascii (h : c.toNat ≤ 127) : c.utf8Size = 1 :=
  Char.utf8Size_eq_one_iff.mpr (UInt32.le_iff_toNat_le.mpr h)

theorem utf8Size_toLower (c : Char) : c.toLower.utf8Size = c.utf8Size := by
  unfold Char.toLower
  split
  · rename_i h
    have hupper : c.toNat ≤ 90 := UInt32.le_iff_toNat_le.mp h.2
    have hlower : (c.val + 32).toNat ≤ 127 := by
      simp [UInt32.toNat_add]
      omega
    rw [utf8Size_of_ascii (Nat.le_trans hupper (by decide))]
    exact utf8Size_of_ascii hlower
  · rfl

theorem toLower_of_not_upper (h : ¬(65 ≤ c.toNat ∧ c.toNat ≤ 90)) : c.toLower = c := by
  unfold Char.toLower
  split
  · rename_i hupper
    exact absurd ⟨UInt32.le_iff_toNat_le.mp hupper.1, UInt32.le_iff_toNat_le.mp hupper.2⟩ h
  · rfl

theorem toLower_toLower (c : Char) : c.toLower.toLower = c.toLower := by
  have hall : ∀ n ≤ 90, 65 ≤ n → (Char.ofNat n).toLower.toLower = (Char.ofNat n).toLower := by
    decide
  by_cases h : 65 ≤ c.toNat ∧ c.toNat ≤ 90
  · rw [← Char.ofNat_toNat c]
    exact hall c.toNat h.2 h.1
  · rw [toLower_of_not_upper h, toLower_of_not_upper h]

theorem toLower_eq_iff (hd : d.isAlpha = false) : c.toLower = d ↔ c = d := by
  have hall : ∀ n ≤ 90, 65 ≤ n → (Char.ofNat n).isAlpha ∧ (Char.ofNat n).toLower.isAlpha := by
    decide
  by_cases h : 65 ≤ c.toNat ∧ c.toNat ≤ 90
  · have hletter := hall c.toNat h.2 h.1
    rw [Char.ofNat_toNat] at hletter
    constructor
    · rintro rfl
      simp [hd] at hletter
    · rintro rfl
      simp [hd] at hletter
  · rw [toLower_of_not_upper h]

theorem toAsciiLowercase_idem (s : Str) :
    toAsciiLowercase (toAsciiLowercase s) = toAsciiLowercase s := by
  rw [toAsciiLowercase, toAsciiLowercase, List.map_map]
  exact List.map_congr_left fun c _ => toLower_toLower c

theorem byteLen_toAsciiLowercase (s : Str) : byteLen (toAsciiLowercase s) = byteLen s := by
  unfold byteLen toAsciiLowercase
  rw [List.map_map]
  congr 1
  exact List.map_congr_left fun c _ => utf8Size_toLower c

/-! ## Where the pieces come from -/

theorem mem_of_mem_trimMatches (h : c ∈ trimMatches p s) : c ∈ s :=
  (List.dropWhile_suffix p).subset ((List.rdropWhile_prefix p _).subset h)

theorem head_trimMatches (h : (trimMatches p s).head? = some c) : p c = false := by
  obtain ⟨t, ht⟩ := List.rdropWhile_prefix p (s.dropWhile p)
  have hhead : (s.dropWhile p).head? = some c := by
    rw [← ht, List.head?_append]
    show ((trimMatches p s).head?).or _ = _
    rw [h]
    rfl
  cases hd : s.dropWhile p with
  | nil => rw [hd] at hhead; cases hhead
  | cons x xs =>
    rw [hd] at hhead
    cases hhead
    have hne : s.dropWhile p ≠ [] := by rw [hd]; simp
    simpa [hd] using List.head_dropWhile_not p hne

theorem dropWhile_append_cons (h : p c = false) (a b : Str) :
    (a ++ c :: b).dropWhile p = a.dropWhile p ++ c :: b := by
  induction a with
  | nil => simp [h]
  | cons x a ih =>
    cases hx : p x with
    | true => simpa [hx] using ih
    | false => simp [hx]

/-- Trimming stops on either side of a character that stays. -/
theorem trimMatches_append_cons (h : p c = false) (a b : Str) :
    trimMatches p (a ++ c :: b) = a.dropWhile p ++ c :: b.rdropWhile p := by
  rw [trimMatches, dropWhile_append_cons h, List.rdropWhile, List.rdropWhile]
  have hrev : (a.dropWhile p ++ c :: b).reverse = b.reverse ++ c :: (a.dropWhile p).reverse := by
    simp
  rw [hrev, dropWhile_append_cons h]
  simp

theorem trimMatches_padded (ha : ∀ c ∈ a, p c = true) (hs : ∀ c ∈ s, p c = false)
    (hb : ∀ c ∈ b, p c = true) : trimMatches p (a ++ (s ++ b)) = s := by
  cases s with
  | nil =>
    have hall : ∀ c ∈ a ++ b, p c = true := by
      intro c hc
      rcases List.mem_append.mp hc with hc | hc
      · exact ha c hc
      · exact hb c hc
    rw [List.nil_append, trimMatches, List.dropWhile_eq_nil_iff.mpr hall]
    rfl
  | cons d s =>
    have hd := hs d List.mem_cons_self
    have hback : ∀ c ∈ s.reverse, p c = false := fun c hc =>
      hs c (List.mem_cons_of_mem _ (List.mem_reverse.mp hc))
    rw [List.cons_append, trimMatches_append_cons hd, List.dropWhile_eq_nil_iff.mpr ha,
      List.rdropWhile, List.reverse_append,
      List.dropWhile_append_of_pos (fun c hc => hb c (List.mem_reverse.mp hc)),
      List.nil_append]
    cases hr : s.reverse with
    | nil => simp [List.reverse_eq_nil_iff.mp hr]
    | cons c r =>
      rw [List.dropWhile_cons_of_neg (by simp [hback c (by simp [hr])]), ← hr,
        List.reverse_reverse]

theorem splitOnce_eq_some : splitOnce c s = some (a, b) ↔ s = a ++ c :: b ∧ c ∉ a := by
  induction s generalizing a b with
  | nil => simp [splitOnce]
  | cons x xs ih =>
    by_cases hx : x = c
    · subst hx
      cases a with
      | nil => simp [splitOnce]
      | cons y ys =>
        simp only [splitOnce, if_true, Option.some.injEq, Prod.mk.injEq, List.cons_append,
          List.cons.injEq, List.mem_cons, not_or]
        constructor
        · rintro ⟨h, -⟩; cases h
        · rintro ⟨⟨rfl, -⟩, h, -⟩; exact (h rfl).elim
    · cases a with
      | nil =>
        simp only [splitOnce, hx, if_false, Option.map_eq_some_iff, Prod.mk.injEq,
          List.nil_append, List.cons.injEq, false_and]
        constructor
        · rintro ⟨p, -, h, -⟩; cases h
        · rintro ⟨⟨⟩, -⟩
      | cons y ys =>
        simp only [splitOnce, hx, if_false, Option.map_eq_some_iff, Prod.mk.injEq,
          List.cons.injEq, List.cons_append, List.mem_cons, not_or]
        constructor
        · rintro ⟨⟨a', b'⟩, hp, ⟨rfl, rfl⟩, rfl⟩
          obtain ⟨rfl, hc⟩ := ih.mp hp
          exact ⟨⟨rfl, rfl⟩, fun h => hx h.symm, hc⟩
        · rintro ⟨⟨rfl, rfl⟩, -, hc⟩
          exact ⟨(ys, b), ih.mpr ⟨rfl, hc⟩, ⟨rfl, rfl⟩, rfl⟩

theorem splitOnce_append (ha : c ∉ a) (b : Str) :
    splitOnce c (a ++ b) = (splitOnce c b).map fun p => (a ++ p.1, p.2) := by
  induction a with
  | nil => simp
  | cons x a ih =>
    obtain ⟨hx, ha⟩ := not_or.mp (mt List.mem_cons.mpr ha)
    rw [List.cons_append, splitOnce, if_neg (Ne.symm hx), ih ha, Option.map_map]
    rfl

theorem not_mem_of_mem_splitOn (h : l ∈ s.splitOn c) : c ∉ l := by
  induction s generalizing l with
  | nil => simp_all
  | cons x xs ih =>
    rw [List.splitOn_cons_eq_if_modifyHead] at h
    by_cases hx : x = c
    · subst hx
      simp only [beq_self_eq_true, if_true, List.mem_cons] at h
      rcases h with rfl | h
      · simp
      · exact ih h
    · have hbeq : (x == c) = false := by simpa using hx
      simp only [hbeq, Bool.false_eq_true, if_false] at h
      cases hs : xs.splitOn c with
      | nil => exact absurd hs (List.splitOn_ne_nil c xs)
      | cons y ys =>
        rw [hs, List.modifyHead_cons, List.mem_cons] at h
        rcases h with rfl | h
        · have hy : c ∉ y := ih (by rw [hs]; exact List.mem_cons_self)
          simp only [List.mem_cons, not_or]
          exact ⟨fun hc => hx hc.symm, hy⟩
        · exact ih (by rw [hs]; exact List.mem_cons_of_mem _ h)

theorem splitOn_concat (c : Char) (s : Str) : (s ++ [c]).splitOn c = s.splitOn c ++ [[]] := by
  induction s with
  | nil => simp [List.splitOn_cons_eq_if_modifyHead]
  | cons d s ih =>
    rw [List.cons_append, List.splitOn_cons_eq_if_modifyHead, ih,
      List.splitOn_cons_eq_if_modifyHead]
    split_ifs
    · rfl
    · cases hs : s.splitOn c with
      | nil => exact absurd hs (List.splitOn_ne_nil c s)
      | cons piece rest => rfl

theorem splitOn_append_cons (c : Char) (a b : Str) :
    (a ++ c :: b).splitOn c = a.splitOn c ++ b.splitOn c :=
  List.splitOnP_append_cons a b (by simp)

theorem splitOn_append_of_notMem (ha : c ∉ a) (b : Str) :
    (a ++ b).splitOn c = (b.splitOn c).modifyHead (a ++ ·) := by
  induction a with
  | nil =>
    rw [List.nil_append]
    cases b.splitOn c <;> rfl
  | cons d a ih =>
    have hd : (d == c) = false := by
      rw [beq_eq_false_iff_ne]
      rintro rfl
      exact ha List.mem_cons_self
    rw [List.cons_append, List.splitOn_cons_eq_if_modifyHead, hd, if_neg Bool.false_ne_true,
      ih fun hc => ha (List.mem_cons_of_mem _ hc)]
    cases b.splitOn c <;> rfl

theorem splitOn_toAsciiLowercase (hc : c.isAlpha = false) (s : Str) :
    (toAsciiLowercase s).splitOn c = (s.splitOn c).map toAsciiLowercase := by
  induction s with
  | nil => simp [toAsciiLowercase]
  | cons d s ih =>
    have hbeq : (d.toLower == c) = (d == c) := by
      rw [Bool.eq_iff_iff, beq_iff_eq, beq_iff_eq]
      exact toLower_eq_iff hc
    have hcons : toAsciiLowercase (d :: s) = d.toLower :: toAsciiLowercase s := rfl
    rw [hcons, List.splitOn_cons_eq_if_modifyHead, List.splitOn_cons_eq_if_modifyHead, hbeq, ih]
    split_ifs
    · rfl
    · cases s.splitOn c <;> rfl

/-! ## Joining -/

theorem join_cons (sep p : Str) (rest : List Str) :
    join sep (p :: rest) = p ++ rest.flatMap (sep ++ ·) := by
  induction rest generalizing p with
  | nil => simp [join]
  | cons q rest ih =>
    have hq := ih q
    rw [join] at hq ⊢
    rw [List.intercalate_cons_cons, hq]
    simp

theorem mem_join_of_mem {sep : Str} {parts : List Str} (h : l ∈ parts) (hc : c ∈ l) :
    c ∈ join sep parts := by
  induction parts with
  | nil => cases h
  | cons p ps ih =>
    by_cases hps : ps = []
    · subst hps
      rw [join, List.intercalate_singleton]
      rcases List.mem_singleton.mp h with rfl
      exact hc
    · rw [join, List.intercalate_cons_of_ne_nil hps]
      rcases List.mem_cons.mp h with rfl | h
      · simp [hc]
      · exact List.mem_append_right _ (ih h)

theorem forall_mem_join {P : Char → Prop} {sep : Str} {parts : List Str}
    (hsep : ∀ c ∈ sep, P c) (hparts : ∀ l ∈ parts, ∀ c ∈ l, P c) :
    ∀ c ∈ join sep parts, P c := by
  induction parts with
  | nil => simp [join]
  | cons p ps ih =>
    have hp := hparts p List.mem_cons_self
    have hrest := ih fun l hl => hparts l (List.mem_cons_of_mem _ hl)
    by_cases hps : ps = []
    · subst hps
      rw [join, List.intercalate_singleton]
      exact hp
    · rw [join, List.intercalate_cons_of_ne_nil hps]
      intro c hc
      rcases List.mem_append.mp hc with hc | hc
      · rcases List.mem_append.mp hc with hc | hc
        · exact hp c hc
        · exact hsep c hc
      · exact hrest c hc

theorem mem_of_mem_splitOn (h : l ∈ s.splitOn c) (hd : d ∈ l) : d ∈ s := by
  have hs : join [c] (s.splitOn c) = s := List.intercalate_splitOn c
  rw [← hs]
  exact mem_join_of_mem h hd

/-! ## Ends -/

theorem stripPrefix_append (a b : Str) : stripPrefix a (a ++ b) = some b := by
  simp [stripPrefix]

theorem stripSuffix_concat (c : Char) (s : Str) : stripSuffix [c] (s ++ [c]) = some s := by
  simp [stripSuffix, List.isSuffixOf?, List.isPrefixOf?]

theorem stripSuffix_eq_none (h : endsWith c s = false) : stripSuffix [c] s = none := by
  rcases List.eq_nil_or_concat s with rfl | ⟨t, d, rfl⟩
  · rfl
  · have hd : c ≠ d := by
      rintro rfl
      simp [endsWith] at h
    simp [stripSuffix, List.isSuffixOf?, List.isPrefixOf?, hd]

theorem endsWith_iff : endsWith c s ↔ ∃ t, s = t ++ [c] := by
  rcases List.eq_nil_or_concat s with rfl | ⟨t, d, rfl⟩
  · simp [endsWith]
  · simp [endsWith]

theorem endsWith_toAsciiLowercase (s : Str) :
    endsWith '.' (toAsciiLowercase s) = endsWith '.' s := by
  rcases List.eq_nil_or_concat s with rfl | ⟨t, d, rfl⟩
  · rfl
  · simp [endsWith, toAsciiLowercase, toLower_eq_iff (show '.'.isAlpha = false by decide)]

theorem rdropWhile_of_not_endsWith (h : endsWith c s = false) : s.rdropWhile (· = c) = s := by
  rw [List.rdropWhile_eq_self_iff]
  intro hne hlast
  simp only [decide_eq_true_eq] at hlast
  simp [endsWith, List.getLast?_eq_some_getLast hne, hlast] at h

theorem endsWith_cons (hne : s ≠ []) : endsWith c (d :: s) = endsWith c s := by
  simp [endsWith, List.getLast?_cons, List.getLast?_eq_some_getLast hne]

theorem endsWith_append {t : Str} (hne : t ≠ []) : endsWith c (s ++ t) = endsWith c t := by
  simp [endsWith, List.getLast?_append, List.getLast?_eq_some_getLast hne]

/-! ## Decimal numbers -/

/-- `u16::to_string`, and that of every other unsigned number. -/
def decimal (n : Nat) : Str := (toString n).toList

theorem decimal_eq (n : Nat) : decimal n = Nat.toDigits 10 n := by
  simp [decimal]

theorem isDigit_of_mem_decimal {n : Nat} (h : c ∈ decimal n) : c.isDigit := by
  rw [decimal_eq] at h
  exact Nat.isDigit_of_mem_toDigits (by decide) (by decide) h

theorem isDigits_decimal (n : Nat) : isDigits (decimal n) := by
  have hne : decimal n ≠ [] := by
    rw [decimal_eq]
    exact Nat.toDigits_ne_nil
  simp only [isDigits, Bool.and_eq_true, List.all_eq_true]
  exact ⟨by simpa using hne, fun c hc => isDigit_of_mem_decimal hc⟩

theorem digitsValue_decimal (n : Nat) : digitsValue (decimal n) = n := by
  rw [decimal_eq]
  exact Nat.ofDigitChars_ten_toDigits

theorem toNat_of_isDigit (h : c.isDigit) : 48 ≤ c.toNat ∧ c.toNat ≤ 57 := by
  simp only [Char.isDigit, Bool.and_eq_true, decide_eq_true_eq] at h
  exact ⟨UInt32.le_iff_toNat_le.mp h.1, UInt32.le_iff_toNat_le.mp h.2⟩

theorem digitChar_of_isDigit (h : c.isDigit) : Nat.digitChar (c.toNat - '0'.toNat) = c := by
  have hall : ∀ n ≤ 57, 48 ≤ n → Nat.digitChar (n - '0'.toNat) = Char.ofNat n := by decide
  obtain ⟨hlow, hhigh⟩ := toNat_of_isDigit h
  rw [hall c.toNat hhigh hlow, Char.ofNat_toNat]

theorem digitsValue_concat (s : Str) (c : Char) :
    digitsValue (s ++ [c]) = 10 * digitsValue s + (c.toNat - '0'.toNat) := by
  simp [digitsValue, List.foldl_append]

theorem digitsValue_lt (h : ∀ c ∈ s, c.isDigit) : digitsValue s < 10 ^ s.length := by
  induction s using List.reverseRecOn with
  | nil => decide
  | append_singleton s c ih =>
    have hs := ih fun d hd => h d (List.mem_append_left _ hd)
    have hc := toNat_of_isDigit (h c (by simp))
    have hzero : '0'.toNat = 48 := rfl
    rw [digitsValue_concat, List.length_append, List.length_singleton, Nat.pow_succ]
    omega

/-- Digits alone are parsed as far as the type reaches. -/
theorem parseUnsigned_of_isDigits (h : isDigits s) (max : Nat) :
    parseUnsigned max s = if digitsValue s ≤ max then some (digitsValue s) else none := by
  have hhead : ∀ rest, s ≠ '+' :: rest := by
    rintro rest rfl
    simp only [isDigits, List.all_cons, Bool.and_eq_true] at h
    exact absurd h.2.1 (by decide)
  unfold parseUnsigned
  split
  · exact absurd rfl (hhead _)
  · simp only [h, Bool.true_and, decide_eq_true_eq]

theorem isDigit_of_mem {digits : Str} (h : isDigits digits) : ∀ c ∈ digits, c.isDigit := by
  simp only [isDigits, Bool.and_eq_true, List.all_eq_true] at h
  exact h.2

theorem trimMatches_of_forall (h : ∀ c ∈ s, p c = false) : trimMatches p s = s := by
  simpa using trimMatches_padded (a := []) (b := []) (by simp) h (by simp)

theorem not_isWhitespace_of_isDigit (h : c.isDigit) : isWhitespace c = false := by
  have hbounds := toNat_of_isDigit h
  simp only [isWhitespace, Bool.or_eq_false_iff, Bool.and_eq_false_iff, decide_eq_false_iff_not,
    beq_eq_false_iff_ne, ne_eq]
  omega

theorem trim_digits {digits : Str} (h : isDigits digits) : trim digits = digits :=
  trimMatches_of_forall fun c hc => not_isWhitespace_of_isDigit (isDigit_of_mem h c hc)

/-- Digits without a leading zero are what their value is written with. -/
theorem decimal_digitsValue (hdigits : ∀ c ∈ s, c.isDigit) (hne : s ≠ [])
    (hlead : s.head? = some '0' → s.length = 1) : decimal (digitsValue s) = s := by
  rw [decimal_eq]
  induction s using List.reverseRecOn with
  | nil => exact absurd rfl hne
  | append_singleton xs c ih =>
    have hc : c.isDigit := hdigits c (by simp)
    have hlt : c.toNat - '0'.toNat < 10 := by
      have hbounds := toNat_of_isDigit hc
      have hzero : '0'.toNat = 48 := rfl
      omega
    have hvalue := digitsValue_concat xs c
    have hlast : Nat.toDigits 10 (c.toNat - '0'.toNat) = [c] := by
      rw [Nat.toDigits_of_lt_base hlt, digitChar_of_isDigit hc]
    cases xs with
    | nil => simpa [digitsValue] using hlast
    | cons d ds =>
      have hd : d ≠ '0' := fun hzero => by simpa using hlead (by simp [hzero])
      have hfront := ih (fun e he => hdigits e (List.mem_append_left _ he)) (by simp)
        (fun hhead => absurd (by simpa using hhead) hd)
      have hpos : 0 < digitsValue (d :: ds) := by
        rcases Nat.eq_zero_or_pos (digitsValue (d :: ds)) with hzero | hpos
        · rw [hzero] at hfront
          exact absurd (List.cons.inj hfront).1.symm hd
        · exact hpos
      rw [hvalue, ← Nat.toDigits_append_toDigits (by decide) hpos hlt, hfront, hlast]

end Text

end Chromulate
