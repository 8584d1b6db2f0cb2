import Chromulate.Cache.Directive
import Chromulate.Lib.Directives

/-!
# Whether Cache-Control is read as it is written

A response's `Cache-Control` is a list of directives whose arguments may be quoted strings. The code
cuts every line at every comma, inside quotes too, and passes over a line with a byte above 127,
which the grammar allows inside quotes. So it can see directives that are not there, and miss some
that are.

What the code makes of a message is a function of the pieces alone (`of_eq_summary`). The first
piece of every place in the list shows the directive that stands there (`head_shows`); the others
are fragments of a quoted string. **`readStrictly_iff`** says for which messages the reading is
never laxer than the text.
-/

namespace Chromulate.Cache

open HeaderMap Directives Text

/-! ## A reading and its pieces -/

/-- The number a piece gives to the directive `name`. -/
def ageIn (name piece : Str) : Option Nat :=
  if directiveName piece = name then (directiveOf (trim piece)).2.bind deltaSeconds else none

/-- The last number that pieces give to the directive `name`. -/
def lastAge (name : Str) (pieces : List Str) : Option Nat :=
  (pieces.filterMap (ageIn name)).getLast?

theorem lastAge_nil (name : Str) : lastAge name [] = none := rfl

theorem lastAge_cons (name piece : Str) (pieces : List Str) :
    lastAge name (piece :: pieces) = (lastAge name pieces).or (ageIn name piece) := by
  rw [lastAge, lastAge]
  cases hage : ageIn name piece with
  | none => rw [List.filterMap_cons_none hage, Option.or_none]
  | some n =>
    rw [List.filterMap_cons_some hage, List.getLast?_cons]
    cases (pieces.filterMap (ageIn name)).getLast? <;> rfl

variable {n : Nat} {name text piece : Str} {lines : List Line} {headers : HeaderMap}

theorem lastAge_eq_none_iff {pieces : List Str} :
    lastAge name pieces = none ↔ ∀ piece ∈ pieces, ageIn name piece = none := by
  rw [lastAge, List.getLast?_eq_none_iff, List.filterMap_eq_nil_iff]

/-- The last number is that of a piece with none behind it. -/
theorem lastAge_eq_some_iff {pieces : List Str} :
    lastAge name pieces = some n ↔ ∃ front piece back, pieces = front ++ piece :: back ∧
      ageIn name piece = some n ∧ ∀ later ∈ back, ageIn name later = none := by
  constructor
  · intro h
    induction pieces with
    | nil => cases h
    | cons first pieces ih =>
      rw [lastAge_cons] at h
      cases hlater : lastAge name pieces with
      | none =>
        rw [hlater, Option.none_or] at h
        exact ⟨[], first, pieces, rfl, h, lastAge_eq_none_iff.mp hlater⟩
      | some later =>
        rw [hlater, Option.some_or] at h
        obtain ⟨front, piece, back, rfl, hage⟩ := ih (hlater.trans h)
        exact ⟨first :: front, piece, back, rfl, hage⟩
  · rintro ⟨front, piece, back, rfl, hage, hback⟩
    induction front with
    | nil => rw [List.nil_append, lastAge_cons, lastAge_eq_none_iff.mpr hback, hage]; rfl
    | cons first front ih => rw [List.cons_append, lastAge_cons, ih]; rfl

theorem directiveName_of_ageIn (h : ageIn name piece = some n) : directiveName piece = name := by
  by_contra hne
  rw [ageIn, if_neg hne] at h
  cases h

/-- Some piece names the directive. -/
def names (name : Str) (pieces : List Str) : Bool :=
  pieces.any fun piece => directiveName piece = name

theorem names_nil (name : Str) : names name [] = false := rfl

theorem names_iff {pieces : List Str} :
    names name pieces ↔ ∃ piece ∈ pieces, directiveName piece = name := by
  simp [names]

namespace CacheControl

theorem set_eq (cc : CacheControl) (name : Str) (argument : Option Str) :
    cc.set name argument =
      { noStore := name = "no-store".toList || cc.noStore
        noCache := name = "no-cache".toList || cc.noCache
        isPrivate := name = "private".toList || cc.isPrivate
        isPublic := name = "public".toList || cc.isPublic
        mustRevalidate := name = "must-revalidate".toList || cc.mustRevalidate
        immutable := name = "immutable".toList || cc.immutable
        maxAge :=
          (if name = "max-age".toList then argument.bind deltaSeconds else none).or cc.maxAge
        sMaxage :=
          (if name = "s-maxage".toList then argument.bind deltaSeconds else none).or
            cc.sMaxage } := by
  by_cases h₁ : name = "no-store".toList
  · rw [h₁]
    rfl
  by_cases h₂ : name = "no-cache".toList
  · rw [h₂]
    rfl
  by_cases h₃ : name = "private".toList
  · rw [h₃]
    rfl
  by_cases h₄ : name = "public".toList
  · rw [h₄]
    rfl
  by_cases h₅ : name = "must-revalidate".toList
  · rw [h₅]
    rfl
  by_cases h₆ : name = "immutable".toList
  · rw [h₆]
    rfl
  by_cases h₇ : name = "max-age".toList
  · rw [h₇]
    rfl
  by_cases h₈ : name = "s-maxage".toList
  · rw [h₈]
    rfl
  rw [set, if_neg h₁, if_neg h₂, if_neg h₃, if_neg h₄, if_neg h₅, if_neg h₆, if_neg h₇, if_neg h₈,
    if_neg h₇, if_neg h₈, decide_eq_false h₁, decide_eq_false h₂, decide_eq_false h₃,
    decide_eq_false h₄, decide_eq_false h₅, decide_eq_false h₆]
  rfl

theorem absorbPiece_eq (cc : CacheControl) (piece : Str) :
    cc.absorbPiece piece = cc.set (directiveName piece) (directiveOf (trim piece)).2 := by
  unfold absorbPiece
  dsimp only
  split
  · rename_i hempty
    rw [List.isEmpty_iff] at hempty
    rw [directiveName, hempty]
    rfl
  · rfl

/-- What pieces come to, field by field. -/
def summary (cc : CacheControl) (pieces : List Str) : CacheControl where
  noStore := cc.noStore || names "no-store".toList pieces
  noCache := cc.noCache || names "no-cache".toList pieces
  isPrivate := cc.isPrivate || names "private".toList pieces
  isPublic := cc.isPublic || names "public".toList pieces
  mustRevalidate := cc.mustRevalidate || names "must-revalidate".toList pieces
  immutable := cc.immutable || names "immutable".toList pieces
  maxAge := (lastAge "max-age".toList pieces).or cc.maxAge
  sMaxage := (lastAge "s-maxage".toList pieces).or cc.sMaxage

theorem foldl_absorbPiece (cc : CacheControl) (pieces : List Str) :
    pieces.foldl absorbPiece cc = cc.summary pieces := by
  induction pieces generalizing cc with
  | nil =>
    simp only [List.foldl_nil, summary, names_nil, lastAge_nil, Bool.or_false, Option.none_or]
  | cons piece pieces ih =>
    rw [List.foldl_cons, ih, absorbPiece_eq, set_eq]
    simp only [summary, names, List.any_cons, lastAge_cons, ageIn, Option.or_assoc, Bool.or_assoc,
      Bool.or_left_comm]

/-- The pieces of a line, if `to_str` reads it. -/
def piecesOf (value : HeaderValue) : List Str :=
  (value.toStr.map fun text => text.splitOn ',').getD []

theorem foldl_absorbLine (cc : CacheControl) (values : List HeaderValue) :
    values.foldl absorbLine cc = (values.flatMap piecesOf).foldl absorbPiece cc := by
  induction values generalizing cc with
  | nil => rfl
  | cons value values ih =>
    have hline : cc.absorbLine value = (piecesOf value).foldl absorbPiece cc := by
      rw [absorbLine, piecesOf]
      cases value.toStr <;> rfl
    rw [List.foldl_cons, ih, hline, List.flatMap_cons, List.foldl_append]

/-- **The reading is a function of the pieces.** -/
theorem of_eq_summary (headers : HeaderMap) :
    of headers = summary {} ((getAll headers .cacheControl).flatMap piecesOf) := by
  rw [of, foldl_absorbLine, foldl_absorbPiece]

/-- Nothing in the pieces means anything to the cache. -/
def Silent (pieces : List Str) : Prop :=
  ∀ piece ∈ pieces,
    directiveName piece ∉ ["no-store", "no-cache", "private", "public", "must-revalidate",
      "immutable"].map String.toList ∧
    ageIn "max-age".toList piece = none ∧ ageIn "s-maxage".toList piece = none

theorem summary_eq_empty_iff {pieces : List Str} : summary {} pieces = {} ↔ Silent pieces := by
  simp only [summary, CacheControl.mk.injEq, Bool.false_or, Option.or_none, lastAge_eq_none_iff,
    names, List.any_eq_false, Silent, decide_eq_true_eq, List.map_cons, List.map_nil,
    List.mem_cons, List.not_mem_nil, or_false, not_or]
  constructor
  · intro h piece hpiece
    obtain ⟨h1, h2, h3, h4, h5, h6, h7, h8⟩ := h
    exact ⟨⟨h1 _ hpiece, h2 _ hpiece, h3 _ hpiece, h4 _ hpiece, h5 _ hpiece, h6 _ hpiece⟩,
      h7 _ hpiece, h8 _ hpiece⟩
  · intro h
    exact ⟨fun p hp => (h p hp).1.1, fun p hp => (h p hp).1.2.1, fun p hp => (h p hp).1.2.2.1,
      fun p hp => (h p hp).1.2.2.2.1, fun p hp => (h p hp).1.2.2.2.2.1,
      fun p hp => (h p hp).1.2.2.2.2.2, fun p hp => (h p hp).2.1, fun p hp => (h p hp).2.2⟩

end CacheControl

/-! ## Lines of the grammar -/

/-- The name of a directive, in lower case. -/
def lowerName (directive : Directive) : Str := toAsciiLowercase directive.name.text

/-- `delta-seconds`, with the largest number there is for a larger one. -/
def seconds (directive : Directive) : Option Nat :=
  directive.argument.bind fun argument =>
    if isDigits argument.value then some (min (digitsValue argument.value) u64Max)
    else none

theorem deltaSeconds_eq_some (h : deltaSeconds text = some n) :
    isDigits text ∧ n = min (digitsValue text) u64Max := by
  unfold deltaSeconds at h
  split at h
  · cases h
  · rename_i hdigits
    have hisDigits : isDigits text := by
      simpa [isDigits] using hdigits
    refine ⟨hisDigits, ?_⟩
    rw [parseUnsigned_of_isDigits hisDigits] at h
    split_ifs at h with hle
    · rw [Nat.min_eq_left hle]
      exact (Option.some.inj h).symm
    · rw [Nat.min_eq_right (Nat.le_of_not_le hle)]
      exact (Option.some.inj h).symm

/-- The text that a piece with an `=` shows for its argument. -/
theorem argument_of_eq {front back : Str} (hfront : '=' ∉ front) :
    (directiveOf (trim (front ++ '=' :: back))).2 =
      some (unquote (trim (back.rdropWhile isWhitespace))) := by
  have hsplit : splitOnce '=' (trim (front ++ '=' :: back)) =
      some (front.dropWhile isWhitespace, back.rdropWhile isWhitespace) := by
    rw [trim, trimMatches_append_cons isWhitespace_eq, splitOnce_eq_some]
    exact ⟨rfl, fun h => hfront ((List.dropWhile_suffix _).subset h)⟩
  rw [directiveOf, hsplit]

theorem unquote_of_head (h : text.head? ≠ some '"') : unquote text = text := by
  have hnone : stripPrefix ['"'] text = none := by
    cases text with
    | nil => rfl
    | cons c text =>
      have hc : '"' ≠ c := fun hc => h (by simp [← hc])
      simp [stripPrefix, List.isPrefixOf?, hc]
  rw [unquote, hnone]
  rfl

/-- Digits are found behind a quote only between two. -/
theorem eq_of_unquote_isDigits {digits : Str} (h : unquote ('"' :: text) = digits)
    (hdigits : isDigits digits) : text = digits ++ ['"'] := by
  have hfront : stripPrefix ['"'] ('"' :: text) = some text :=
    stripPrefix_append ['"'] text
  rw [unquote, hfront, Option.bind_some] at h
  cases hends : endsWith '"' text with
  | true =>
    obtain ⟨inner, rfl⟩ := endsWith_iff.mp hends
    rw [stripSuffix_concat] at h
    rw [← h]
    rfl
  | false =>
    rw [stripSuffix_eq_none hends] at h
    rw [← h] at hdigits
    exact absurd hdigits (by simp [isDigits])

/-! ## The first piece of a place -/

theorem trim_token (word : Token) : trim word.text = word.text :=
  trimMatches_of_forall fun c hc => not_isWhitespace_of_isTchar (word.tchars c hc)

theorem dropWhile_before (element : Element) (word : Token) :
    (element.before ++ word.text).dropWhile isWhitespace = word.text := by
  rw [List.dropWhile_append_of_pos fun c hc => isWhitespace_of_isBlank (element.before_blank c hc)]
  cases htext : word.text with
  | nil => rfl
  | cons c text =>
    have hc : c ∈ word.text := by rw [htext]; exact List.mem_cons_self
    exact List.dropWhile_cons_of_neg
      (by simp [not_isWhitespace_of_isTchar (word.tchars c hc)])

theorem trim_padded (element : Element) (htext : ∀ c ∈ text, isWhitespace c = false) :
    trim (element.before ++ (text ++ element.after)) = text :=
  trimMatches_padded (fun c hc => isWhitespace_of_isBlank (element.before_blank c hc)) htext
    fun c hc => isWhitespace_of_isBlank (element.after_blank c hc)

theorem comma_notMem_of_blank (h : ∀ c ∈ text, isBlank c) : ',' ∉ text :=
  fun hmem => absurd (h _ hmem) (by decide)

/-- What the first piece of a place shows. -/
structure Shows (element : Element) (piece : Str) : Prop where
  empty : element.directive = none → directiveName piece = []
  name : ∀ d, element.directive = some d → directiveName piece = lowerName d
  age : ∀ d n, element.directive = some d →
    (directiveOf (trim piece)).2.bind deltaSeconds = some n → seconds d = some n

theorem directiveOf_token (word : Token) : directiveOf word.text = (word.text, none) := by
  have hnone : splitOnce '=' word.text = none := by
    cases hsplit : splitOnce '=' word.text with
    | none => rfl
    | some parts =>
      have heq := (splitOnce_eq_some.mp hsplit).1
      exact absurd (heq ▸ by simp) (word.not_mem (c := '=') (by decide))
  rw [directiveOf, hnone]

theorem argument_token (element : Element) (word : Token) :
    unquote (trim ((word.text ++ element.after).rdropWhile isWhitespace)) =
      word.text := by
  have hback : (word.text ++ element.after).rdropWhile isWhitespace = word.text := by
    have hpadded := trimMatches_padded (p := isWhitespace) (a := []) (s := word.text)
      (b := element.after) (by simp)
      (fun c hc => not_isWhitespace_of_isTchar (word.tchars c hc))
      (fun c hc => isWhitespace_of_isBlank (element.after_blank c hc))
    rw [List.nil_append, trimMatches] at hpadded
    obtain ⟨c, text, htext⟩ := List.exists_cons_of_ne_nil word.ne_nil
    have hc : c ∈ word.text := by rw [htext]; exact List.mem_cons_self
    rwa [htext, List.cons_append, List.dropWhile_cons_of_neg
      (by simp [not_isWhitespace_of_isTchar (word.tchars c hc)]), ← List.cons_append, ← htext]
      at hpadded
  rw [hback, trim_token, unquote_of_head]
  intro hhead
  exact word.not_mem (c := '"') (by decide) (List.mem_of_mem_head? hhead)

/-- Digits found behind the `=` of a quoted argument are its value. -/
theorem argument_quoted {content : List QuotedChar} {back after : Str}
    (hback : back <+: content.flatMap QuotedChar.raw ++ '"' :: after)
    (h : deltaSeconds (unquote (trim (('"' :: back).rdropWhile isWhitespace))) = some n) :
    isDigits (content.map QuotedChar.value) ∧
      n = min (digitsValue (content.map QuotedChar.value)) u64Max := by
  have hquote : ∀ text : Str, ('"' :: text).rdropWhile isWhitespace =
      '"' :: text.rdropWhile isWhitespace := by
    intro text
    have htrim := trimMatches_append_cons (p := isWhitespace) (c := '"') (by decide) []
      text
    simpa [trimMatches, isWhitespace] using htrim
  have htrim : trim (('"' :: back).rdropWhile isWhitespace) =
      '"' :: back.rdropWhile isWhitespace := by
    rw [hquote, trim, trimMatches,
      List.dropWhile_cons_of_neg (by decide), hquote, List.rdropWhile_idempotent]
  obtain ⟨hdigits, hn⟩ := deltaSeconds_eq_some h
  have hinner := eq_of_unquote_isDigits (congrArg unquote htrim).symm hdigits
  have hvalue : content.map QuotedChar.value =
      unquote (trim (('"' :: back).rdropWhile isWhitespace)) := by
    refine value_of_isPrefix after (fun c hc => ?_) ?_
    · have hdigit : c.isDigit := by
        simp only [isDigits, Bool.and_eq_true, List.all_eq_true] at hdigits
        exact hdigits.2 c hc
      constructor
      · rintro rfl
        exact absurd hdigit (by decide)
      · rintro rfl
        exact absurd hdigit (by decide)
    · rw [← hinner]
      exact (List.rdropWhile_prefix _ _).trans hback
  rw [hvalue]
  exact ⟨hdigits, hn⟩

theorem splitOn_of_notMem (h : ',' ∉ text) : text.splitOn ',' = [text] := by
  have hsplit := splitOn_append_of_notMem h []
  simpa using hsplit

theorem isPrefix_of_splitOn {pieces : List Str} (h : text.splitOn ',' = piece :: pieces) :
    piece <+: text := by
  have htext : join [','] (text.splitOn ',') = text := List.intercalate_splitOn ','
  rw [h, join_cons] at htext
  exact ⟨_, htext⟩

section Places

variable {element : Element} {d : Directive} {argument : Argument}

theorem shows_empty (hd : element.directive = none) :
    element.raw.splitOn ',' = [element.raw] ∧ Shows element element.raw := by
  have hraw : element.raw = element.before ++ ([] ++ element.after) := by
    rw [Element.raw, hd]
    rfl
  constructor
  · apply splitOn_of_notMem
    simp [hraw, comma_notMem_of_blank element.before_blank,
      comma_notMem_of_blank element.after_blank]
  · refine ⟨fun _ => ?_, by simp [hd], by simp [hd]⟩
    rw [directiveName, hraw, trim_padded element (by simp)]
    rfl

theorem shows_bare (hd : element.directive = some d) (hargument : d.argument = none) :
    element.raw.splitOn ',' = [element.raw] ∧ Shows element element.raw := by
  have hraw : element.raw = element.before ++ (d.name.text ++ element.after) := by
    simp [Element.raw, hd, Directive.raw, hargument]
  have htrim : trim element.raw = d.name.text := by
    rw [hraw]
    exact trim_padded element fun c hc => not_isWhitespace_of_isTchar (d.name.tchars c hc)
  constructor
  · apply splitOn_of_notMem
    simp [hraw, comma_notMem_of_blank element.before_blank,
      comma_notMem_of_blank element.after_blank, d.name.not_mem (c := ',') (by decide)]
  · refine ⟨by simp [hd], fun d' hd' => ?_, fun d' n _ hage => ?_⟩
    · cases hd.symm.trans hd'
      rw [directiveName, htrim, directiveOf_token, lowerName]
    · rw [htrim, directiveOf_token] at hage
      cases hage

/-- What digits the first piece of an argument shows are its value. -/
theorem seconds_of_first_piece (hargument : d.argument = some argument) {back : Str}
    {fragments : List Str} (hback : (argument.raw ++ element.after).splitOn ',' = back :: fragments)
    {n : Nat}
    (hage : deltaSeconds (unquote (trim (back.rdropWhile isWhitespace))) = some n) :
    seconds d = some n := by
  rw [seconds, hargument, Option.bind_some]
  cases argument with
  | token word =>
    have hone : (word.text ++ element.after).splitOn ',' = [word.text ++ element.after] :=
      splitOn_of_notMem (by simp [word.not_mem (c := ',') (by decide),
        comma_notMem_of_blank element.after_blank])
    cases hone.symm.trans hback
    rw [argument_token] at hage
    obtain ⟨hdigits, hn⟩ := deltaSeconds_eq_some hage
    rw [Argument.value, if_pos hdigits, hn]
  | quoted content =>
    have hraw : Argument.raw (.quoted content) ++ element.after =
        ['"'] ++ (content.flatMap QuotedChar.raw ++ '"' :: element.after) := by
      simp [Argument.raw]
    obtain ⟨piece, pieces, hpieces⟩ := List.exists_cons_of_ne_nil
      (List.splitOn_ne_nil ',' (content.flatMap QuotedChar.raw ++ '"' :: element.after))
    rw [hraw, splitOn_append_of_notMem (by decide), hpieces, List.modifyHead_cons] at hback
    obtain ⟨rfl, -⟩ := List.cons.inj hback
    obtain ⟨hdigits, hn⟩ := argument_quoted (isPrefix_of_splitOn hpieces) hage
    rw [Argument.value, if_pos hdigits, hn]

theorem shows_argument (hd : element.directive = some d) (hargument : d.argument = some argument) :
    ∃ piece fragments, element.raw.splitOn ',' = piece :: fragments ∧ Shows element piece := by
  have hraw : element.raw = (element.before ++ d.name.text ++ ['=']) ++
      (argument.raw ++ element.after) := by
    simp [Element.raw, hd, Directive.raw, hargument]
  have hcomma : ',' ∉ element.before ++ d.name.text ++ ['='] := by
    simp [comma_notMem_of_blank element.before_blank, d.name.not_mem (c := ',') (by decide)]
  have heq : '=' ∉ element.before ++ d.name.text := by
    intro hmem
    rcases List.mem_append.mp hmem with hmem | hmem
    · exact absurd (element.before_blank _ hmem) (by decide)
    · exact d.name.not_mem (by decide) hmem
  obtain ⟨back, fragments, hback⟩ := List.exists_cons_of_ne_nil
    (List.splitOn_ne_nil ',' (argument.raw ++ element.after))
  refine ⟨(element.before ++ d.name.text) ++ '=' :: back, fragments, ?_, by simp [hd],
    fun d' hd' => ?_, fun d' n hd' hage => ?_⟩
  · rw [hraw, splitOn_append_of_notMem hcomma, hback]
    simp
  · cases hd.symm.trans hd'
    rw [directiveName_of_eq heq, dropWhile_before, trim_token, lowerName]
  · cases hd.symm.trans hd'
    rw [argument_of_eq heq, Option.bind_some] at hage
    exact seconds_of_first_piece hargument hback hage

/-- **The first piece of a place shows the directive that stands there.** -/
theorem head_shows (element : Element) :
    ∃ piece fragments, element.raw.splitOn ',' = piece :: fragments ∧ Shows element piece := by
  cases hd : element.directive with
  | none => exact ⟨_, _, shows_empty hd⟩
  | some d =>
    cases hargument : d.argument with
    | none => exact ⟨_, _, shows_bare hd hargument⟩
    | some argument => exact shows_argument hd hargument

end Places

/-! ## Messages -/

/-- The directives of a message. -/
def directivesOf (lines : List Line) : List Directive := lines.flatMap Line.directives

/-- The message has the directive `name`. -/
def Present (lines : List Line) (name : Str) : Prop := ∃ d ∈ directivesOf lines, lowerName d = name

/-- `to_str` reads the line. -/
def isReadable (line : Line) : Bool := !(line.raw.any isObsText)

/-- The pieces of the lines that are read. -/
def pieces (lines : List Line) : List Str :=
  (lines.filter isReadable).flatMap fun line => line.raw.splitOn ','

/-- The pieces that are not the first of their place: they stand inside a quoted string. -/
def fragments (lines : List Line) : List Str :=
  (lines.filter isReadable).flatMap fun line =>
    line.elements.flatMap fun element => (element.raw.splitOn ',').tail

theorem splitOn_raw (line : Line) :
    line.raw.splitOn ',' = line.elements.flatMap fun element => element.raw.splitOn ',' := by
  rw [Line.raw, Line.elements, List.map_cons, splitOn_join, ← List.map_cons, List.flatMap_map]

theorem mem_pieces :
    piece ∈ pieces lines ↔ ∃ line ∈ lines, isReadable line ∧
      ∃ element ∈ line.elements, piece ∈ element.raw.splitOn ',' := by
  simp only [pieces, List.mem_flatMap, List.mem_filter, splitOn_raw, and_assoc]

theorem fragments_subset (h : piece ∈ fragments lines) : piece ∈ pieces lines := by
  simp only [fragments, List.mem_flatMap, List.mem_filter] at h
  obtain ⟨line, ⟨hline, hreadable⟩, element, helement, htail⟩ := h
  exact mem_pieces.mpr ⟨line, hline, hreadable, element, helement, List.mem_of_mem_tail htail⟩

/-- **A piece is a fragment or shows a directive of the message.** -/
theorem fragment_or_shows (h : piece ∈ pieces lines) (hname : directiveName piece = name)
    (hne : name ≠ []) :
    piece ∈ fragments lines ∨ ∃ d ∈ directivesOf lines, lowerName d = name ∧
      ∀ n, ageIn name piece = some n → seconds d = some n := by
  obtain ⟨line, hline, hreadable, element, helement, hpiece⟩ := mem_pieces.mp h
  obtain ⟨first, others, hsplit, hshows⟩ := head_shows element
  rw [hsplit] at hpiece
  rcases List.mem_cons.mp hpiece with rfl | hpiece
  · right
    cases hd : element.directive with
    | none => exact absurd (hname.symm.trans (hshows.empty hd)) hne
    | some d =>
      have hmem : d ∈ line.directives := List.mem_filterMap.mpr ⟨element, helement, hd⟩
      refine ⟨d, List.mem_flatMap.mpr ⟨line, hline, hmem⟩,
        (hshows.name d hd).symm.trans hname, fun n hage => ?_⟩
      rw [ageIn, if_pos hname] at hage
      exact hshows.age d n hd hage
  · left
    simp only [fragments, List.mem_flatMap, List.mem_filter]
    exact ⟨line, ⟨hline, hreadable⟩, element, helement, by rw [hsplit]; exact hpiece⟩

/-- A directive in a line that is read is seen. -/
theorem names_of_present (hreadable : ∀ line ∈ lines, isReadable line) (h : Present lines name) :
    names name (pieces lines) := by
  obtain ⟨d, hd, hname⟩ := h
  obtain ⟨line, hline, hd⟩ := List.mem_flatMap.mp hd
  obtain ⟨element, helement, hd⟩ := List.mem_filterMap.mp hd
  obtain ⟨piece, others, hsplit, hshows⟩ := head_shows element
  have hpiece : piece ∈ element.raw.splitOn ',' := by
    rw [hsplit]
    exact List.mem_cons_self
  refine names_iff.mpr ⟨piece, mem_pieces.mpr ⟨line, hline, hreadable line hline, element,
    helement, hpiece⟩, ?_⟩
  rw [hshows.name d hd, hname]

/-! ## The bytes of a line -/

theorem isVisibleByte_eq (byte : UInt8) (h : isValidByte byte) :
    isVisibleByte byte = !(isObsText (Char.ofNat byte.toNat)) := by
  have hall : ∀ n < 256, isValidByte (UInt8.ofNat n) →
      isVisibleByte (UInt8.ofNat n) = !(isObsText (Char.ofNat n)) := by decide +kernel
  have hbyte := hall byte.toNat byte.toNat_lt
  rw [UInt8.ofNat_toNat] at hbyte
  exact hbyte h

/-- `to_str` reads what has no `obs-text` in it. -/
theorem toStr_eq (value : HeaderValue) :
    value.toStr = if value.latin1.any isObsText then none else some value.latin1 := by
  have hvalid := List.all_eq_true.mp value.valid
  have hall : value.bytes.all isVisibleByte = !(value.latin1.any isObsText) := by
    rw [HeaderValue.latin1, List.any_map, List.not_any_eq_all_not, Bool.eq_iff_iff,
      List.all_eq_true, List.all_eq_true]
    constructor
    · intro h byte hbyte
      have hsame := isVisibleByte_eq byte (hvalid byte hbyte)
      rw [h byte hbyte] at hsame
      exact hsame.symm
    · intro h byte hbyte
      rw [isVisibleByte_eq byte (hvalid byte hbyte)]
      exact h byte hbyte
  rw [HeaderValue.toStr, hall]
  cases value.latin1.any isObsText <;> rfl

theorem all_intercalate_comma (parts : List Bytes)
    (h : ∀ part ∈ parts, part.all isValidByte) :
    ([0x2C].intercalate parts).all isValidByte = true := by
  induction parts with
  | nil => rfl
  | cons part parts ih =>
    have hpart := h part List.mem_cons_self
    have hparts := ih fun p hp => h p (List.mem_cons_of_mem _ hp)
    cases parts with
    | nil => simpa using hpart
    | cons second parts =>
      rw [List.intercalate_cons_cons]
      simp only [List.all_append, hpart, hparts, Bool.true_and, Bool.and_true]
      decide

/-- The lines of a field as one line, with a comma between two. -/
def joinLines (values : List HeaderValue) : HeaderValue where
  bytes := [0x2C].intercalate (values.map HeaderValue.bytes)
  valid := all_intercalate_comma _ fun part hpart => by
    obtain ⟨value, -, rfl⟩ := List.mem_map.mp hpart
    exact value.valid

theorem latin1_joinLines (values : List HeaderValue) :
    (joinLines values).latin1 = join [','] (values.map HeaderValue.latin1) := by
  rw [joinLines, HeaderValue.latin1]
  induction values with
  | nil => rfl
  | cons value values ih =>
    cases values with
    | nil => simp [join, HeaderValue.latin1]
    | cons second values =>
      simp only [List.map_cons, join, List.intercalate_cons_cons] at ih ⊢
      rw [List.map_append, List.map_append, ih]
      rfl

/-- The field lines of a message are these lines of the grammar. -/
def Writes (headers : HeaderMap) (lines : List Line) : Prop :=
  (getAll headers .cacheControl).map HeaderValue.latin1 = lines.map Line.raw

theorem piecesOf_eq {value : HeaderValue} {line : Line} (h : value.latin1 = line.raw) :
    CacheControl.piecesOf value = if isReadable line then line.raw.splitOn ',' else [] := by
  rw [CacheControl.piecesOf, toStr_eq, h, isReadable]
  cases line.raw.any isObsText <;> rfl

theorem flatMap_piecesOf {values : List HeaderValue}
    (h : values.map HeaderValue.latin1 = lines.map Line.raw) :
    values.flatMap CacheControl.piecesOf = pieces lines := by
  induction values generalizing lines with
  | nil =>
    rw [List.map_nil, eq_comm, List.map_eq_nil_iff] at h
    rw [h]
    rfl
  | cons value values ih =>
    obtain ⟨line, rest, rfl, hline, hrest⟩ := List.map_eq_cons_iff.mp h.symm
    have hlater := ih hrest.symm
    rw [List.flatMap_cons, hlater, piecesOf_eq hline.symm, pieces, pieces, List.filter_cons]
    split <;> simp

theorem of_eq (h : Writes headers lines) :
    CacheControl.of headers = CacheControl.summary {} (pieces lines) := by
  rw [CacheControl.of_eq_summary, flatMap_piecesOf h]

theorem any_isObsText_join :
    (join [','] (lines.map Line.raw)).any isObsText = false ↔
      ∀ line ∈ lines, isReadable line := by
  simp only [List.any_eq_false, Bool.not_eq_true, isReadable, Bool.not_eq_true', List.any_eq_false]
  constructor
  · intro h line hline c hc
    exact h c (mem_join_of_mem (List.mem_map_of_mem hline) hc)
  · intro h
    refine forall_mem_join ?_ ?_
    · intro c hc
      cases List.mem_singleton.mp hc
      decide
    · intro text htext c hc
      obtain ⟨line, hline, rfl⟩ := List.mem_map.mp htext
      exact h line hline c hc

theorem splitOn_join_raw (h : ∀ line ∈ lines, isReadable line) :
    CacheControl.summary {} ((join [','] (lines.map Line.raw)).splitOn ',') =
      CacheControl.summary {} (pieces lines) := by
  cases lines with
  | nil => decide
  | cons line lines =>
    rw [List.map_cons, splitOn_join, ← List.map_cons, List.flatMap_map, pieces,
      List.filter_eq_self.mpr h]

/-- **What the joined line is read as.** -/
theorem of_joined (h : Writes headers lines) :
    ((∀ line ∈ lines, isReadable line) →
      CacheControl.of [(.cacheControl, joinLines (getAll headers .cacheControl))] =
        CacheControl.of headers) ∧
    ((∃ line ∈ lines, isReadable line = false) →
      CacheControl.of [(.cacheControl, joinLines (getAll headers .cacheControl))] = {}) := by
  have hlatin1 : (joinLines (getAll headers .cacheControl)).latin1 =
      join [','] (lines.map Line.raw) := by
    rw [latin1_joinLines, h]
  have hone : getAll [(.cacheControl, joinLines (getAll headers .cacheControl))] .cacheControl =
      [joinLines (getAll headers .cacheControl)] := by
    simp [getAll]
  have hof : CacheControl.of [(.cacheControl, joinLines (getAll headers .cacheControl))] =
      CacheControl.summary {}
        (CacheControl.piecesOf (joinLines (getAll headers .cacheControl))) := by
    rw [CacheControl.of_eq_summary, hone, List.flatMap_singleton]
  rw [hof, CacheControl.piecesOf, toStr_eq, hlatin1]
  constructor
  · intro hreadable
    rw [any_isObsText_join.mpr hreadable, of_eq h]
    exact splitOn_join_raw hreadable
  · intro hunreadable
    obtain ⟨line, hline, hnot⟩ := hunreadable
    have hany : (join [','] (lines.map Line.raw)).any isObsText = true := by
      by_contra hnone
      rw [Bool.not_eq_true, any_isObsText_join] at hnone
      rw [hnone line hline] at hnot
      cases hnot
    rw [hany]
    rfl

/-! ## When the reading is strict -/

/-- No directive that restricts is missed, and none that allows is made up. -/
structure ReadStrictly (headers : HeaderMap) (lines : List Line) : Prop where
  noStore : Present lines "no-store".toList → (CacheControl.of headers).noStore
  noCache : Present lines "no-cache".toList → (CacheControl.of headers).noCache
  isPrivate : Present lines "private".toList → (CacheControl.of headers).isPrivate
  isPublic : (CacheControl.of headers).isPublic → Present lines "public".toList
  mustRevalidate : (CacheControl.of headers).mustRevalidate →
    Present lines "must-revalidate".toList
  maxAge : ∀ n, (CacheControl.of headers).maxAge = some n →
    ∃ d ∈ directivesOf lines, lowerName d = "max-age".toList ∧ seconds d = some n
  sMaxage : (CacheControl.of headers).sMaxage.isSome → Present lines "s-maxage".toList
  joined : CacheControl.of headers =
    CacheControl.of [(.cacheControl, joinLines (getAll headers .cacheControl))]

/-- Every line is read, and what a fragment of a quoted string shows is there anyway; of the ages,
what one shows that no other comes after. -/
structure InTheOpen (lines : List Line) : Prop where
  readable : ∀ line ∈ lines, isReadable line
  isPublic : ∀ f ∈ fragments lines, directiveName f = "public".toList →
    Present lines "public".toList
  mustRevalidate : ∀ f ∈ fragments lines, directiveName f = "must-revalidate".toList →
    Present lines "must-revalidate".toList
  maxAge : ∀ front f back n, pieces lines = front ++ f :: back → f ∈ fragments lines →
    ageIn "max-age".toList f = some n → (∀ later ∈ back, ageIn "max-age".toList later = none) →
    ∃ d ∈ directivesOf lines, lowerName d = "max-age".toList ∧ seconds d = some n
  sMaxage : ∀ f ∈ fragments lines, (ageIn "s-maxage".toList f).isSome →
    Present lines "s-maxage".toList

/-- The lines that are read say nothing, and no line has a directive that restricts. -/
structure NothingToRead (lines : List Line) : Prop where
  silent : CacheControl.Silent (pieces lines)
  unrestricted : ∀ name ∈ ["no-store", "no-cache", "private"].map String.toList,
    ¬ Present lines name

theorem present_of_names (hne : name ≠ [])
    (hfragments : ∀ f ∈ fragments lines, directiveName f = name → Present lines name)
    (h : names name (pieces lines)) : Present lines name := by
  obtain ⟨piece, hpiece, hname⟩ := names_iff.mp h
  rcases fragment_or_shows hpiece hname hne with hfragment | ⟨d, hd, hlower, -⟩
  · exact hfragments piece hfragment hname
  · exact ⟨d, hd, hlower⟩

theorem readStrictly_of_inTheOpen (hwrites : Writes headers lines) (h : InTheOpen lines) :
    ReadStrictly headers lines := by
  have hof := of_eq hwrites
  refine ⟨?_, ?_, ?_, ?_, ?_, ?_, ?_, ((of_joined hwrites).1 h.readable).symm⟩
  · intro hp
    rw [hof]
    exact names_of_present h.readable hp
  · intro hp
    rw [hof]
    exact names_of_present h.readable hp
  · intro hp
    rw [hof]
    exact names_of_present h.readable hp
  · intro hflag
    rw [hof] at hflag
    exact present_of_names (by decide) h.isPublic hflag
  · intro hflag
    rw [hof] at hflag
    exact present_of_names (by decide) h.mustRevalidate hflag
  · intro n hn
    rw [hof] at hn
    obtain ⟨front, piece, back, hpieces, hage, hback⟩ :=
      lastAge_eq_some_iff.mp (Option.or_none.symm.trans hn)
    have hpiece : piece ∈ pieces lines := by simp [hpieces]
    rcases fragment_or_shows hpiece (directiveName_of_ageIn hage) (by decide) with
      hfragment | ⟨d, hd, hlower, hseconds⟩
    · exact h.maxAge front piece back n hpieces hfragment hage hback
    · exact ⟨d, hd, hlower, hseconds n hage⟩
  · intro hsome
    rw [hof] at hsome
    obtain ⟨n, hn⟩ := Option.isSome_iff_exists.mp hsome
    obtain ⟨front, piece, back, hpieces, hage, -⟩ :=
      lastAge_eq_some_iff.mp (Option.or_none.symm.trans hn)
    have hpiece : piece ∈ pieces lines := by simp [hpieces]
    rcases fragment_or_shows hpiece (directiveName_of_ageIn hage) (by decide) with
      hfragment | ⟨d, hd, hlower, -⟩
    · exact h.sMaxage piece hfragment (by rw [hage]; rfl)
    · exact ⟨d, hd, hlower⟩

theorem readStrictly_of_nothingToRead (hwrites : Writes headers lines) (h : NothingToRead lines) :
    ReadStrictly headers lines := by
  have hof : CacheControl.of headers = {} := by
    rw [of_eq hwrites]
    exact CacheControl.summary_eq_empty_iff.mpr h.silent
  have hjoined : CacheControl.of headers =
      CacheControl.of [(.cacheControl, joinLines (getAll headers .cacheControl))] := by
    by_cases hreadable : ∀ line ∈ lines, isReadable line
    · exact ((of_joined hwrites).1 hreadable).symm
    · have hunreadable : ∃ line ∈ lines, isReadable line = false := by
        simpa using hreadable
      rw [(of_joined hwrites).2 hunreadable, hof]
  refine ⟨?_, ?_, ?_, ?_, ?_, ?_, ?_, hjoined⟩
  · exact fun hp => absurd hp (h.unrestricted _ (by decide))
  · exact fun hp => absurd hp (h.unrestricted _ (by decide))
  · exact fun hp => absurd hp (h.unrestricted _ (by decide))
  · simp [hof]
  · simp [hof]
  · simp [hof]
  · simp [hof]

/-- **When the reading is never laxer than the text.** -/
theorem readStrictly_iff {headers : HeaderMap} {lines : List Line}
    (hwrites : Writes headers lines) :
    ReadStrictly headers lines ↔ InTheOpen lines ∨ NothingToRead lines := by
  have hof := of_eq hwrites
  constructor
  · intro h
    by_cases hreadable : ∀ line ∈ lines, isReadable line
    · left
      have hshown : ∀ {name : Str}, ∀ f ∈ fragments lines, directiveName f = name →
          names name (pieces lines) :=
        fun f hf hname => names_iff.mpr ⟨f, fragments_subset hf, hname⟩
      refine ⟨hreadable, fun f hf hname => ?_, fun f hf hname => ?_,
        fun front f back n hpieces _ hage hback => ?_, fun f hf hage => ?_⟩
      · apply h.isPublic
        rw [hof]
        exact hshown f hf hname
      · apply h.mustRevalidate
        rw [hof]
        exact hshown f hf hname
      · apply h.maxAge
        rw [hof]
        exact Option.or_none.trans (lastAge_eq_some_iff.mpr ⟨front, f, back, hpieces, hage, hback⟩)
      · apply h.sMaxage
        rw [hof]
        by_contra hnone
        rw [Bool.not_eq_true, Option.isSome_eq_false_iff, Option.isNone_iff_eq_none] at hnone
        have hall := lastAge_eq_none_iff.mp (Option.or_none.symm.trans hnone)
        rw [hall f (fragments_subset hf)] at hage
        cases hage
    · right
      have hunreadable : ∃ line ∈ lines, isReadable line = false := by
        simpa using hreadable
      have hempty : CacheControl.of headers = {} := by
        rw [h.joined]
        exact (of_joined hwrites).2 hunreadable
      constructor
      · exact CacheControl.summary_eq_empty_iff.mp (hof.symm.trans hempty)
      · intro name hname hp
        simp only [List.map_cons, List.map_nil, List.mem_cons, List.not_mem_nil, or_false] at hname
        rcases hname with rfl | rfl | rfl
        · have hflag := h.noStore hp
          rw [hempty] at hflag
          cases hflag
        · have hflag := h.noCache hp
          rw [hempty] at hflag
          cases hflag
        · have hflag := h.isPrivate hp
          rw [hempty] at hflag
          cases hflag
  · intro h
    rcases h with h | h
    · exact readStrictly_of_inTheOpen hwrites h
    · exact readStrictly_of_nothingToRead hwrites h

/-! ## Three messages -/

instance (lines : List Line) (name : Str) : Decidable (Present lines name) :=
  inferInstanceAs (Decidable (∃ d ∈ directivesOf lines, lowerName d = name))

/-- A directive with no blanks around it. -/
def place (directive : Directive) : Element :=
  ⟨[], some directive, [], fun _ h => absurd h List.not_mem_nil,
    fun _ h => absurd h List.not_mem_nil⟩

/-- Characters that need no backslash. -/
def plainly (text : Str) (h : text.all isQdtext) : List QuotedChar :=
  text.attach.map fun c => .plain c.1 (List.all_eq_true.mp h c.1 c.2)

def word (text : Str) (h : text ≠ [] ∧ text.all isTchar) : Token := ⟨text, h.1, h.2⟩

/-- One directive with a quoted argument that looks like more. -/
def disguised : Line :=
  ⟨place ⟨word "private".toList (by decide),
    some (.quoted (plainly "a, max-age=99, public, b".toList (by decide)))⟩, []⟩

/-- `no-store`, and a letter with an accent in another argument. -/
def accented : Line :=
  ⟨place ⟨word "no-store".toList (by decide), none⟩,
    [place ⟨word "x".toList (by decide),
      some (.quoted (plainly [Char.ofNat 0xC3, Char.ofNat 0xA9] (by decide)))⟩]⟩

/-- An age, and the same one shown by a quoted argument behind it. -/
def ordinary : Line :=
  ⟨place ⟨word "max-age".toList (by decide), some (.token (word "60".toList (by decide)))⟩,
    [place ⟨word "private".toList (by decide),
      some (.quoted (plainly "a, max-age=60".toList (by decide)))⟩]⟩

theorem readStrictly_ordinary :
    ReadStrictly [(.cacheControl, .fromStatic "max-age=60,private=\"a, max-age=60\"")]
      [ordinary] := by
  refine (readStrictly_iff (by unfold Writes; decide +kernel)).mpr (Or.inl ?_)
  refine ⟨by decide +kernel, by decide +kernel, by decide +kernel, ?_, by decide +kernel⟩
  intro front f back n _ hf hage _
  have hshown : ∀ f ∈ fragments [ordinary], ∀ n ∈ ageIn "max-age".toList f, n = 60 := by
    decide +kernel
  cases hshown f hf n hage
  decide +kernel

/-- Two of the directives that are read from the first message are not there, and the one that
matters in the second is missed. -/
theorem not_readStrictly :
    let hidden : HeaderMap :=
      [(.cacheControl, .fromStatic "private=\"a, max-age=99, public, b\"")]
    let missed : HeaderMap := [(.cacheControl, .fromStatic "no-store,x=\"é\"")]
    (Writes hidden [disguised] ∧ CacheControl.of hidden =
        { isPrivate := true, isPublic := true, maxAge := some 99 } ∧
      ¬ Present [disguised] "public".toList ∧ ¬ Present [disguised] "max-age".toList ∧
      ¬ ReadStrictly hidden [disguised]) ∧
    (Writes missed [accented] ∧ Present [accented] "no-store".toList ∧
      (CacheControl.of missed).noStore = false ∧ ¬ ReadStrictly missed [accented]) := by
  have hpublic : ¬ Present [disguised] "public".toList := by decide +kernel
  have hstore : Present [accented] "no-store".toList := by decide +kernel
  refine ⟨⟨by unfold Writes; decide +kernel, by decide +kernel, hpublic, by decide +kernel, ?_⟩,
    by unfold Writes; decide +kernel, hstore, by decide +kernel, ?_⟩
  · intro h
    exact hpublic (h.isPublic (by decide +kernel))
  · intro h
    exact absurd (h.noStore hstore) (by decide +kernel)

end Chromulate.Cache
