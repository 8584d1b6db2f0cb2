import Chromulate.Http.Message
import Chromulate.Lib.QuotedList
import Chromulate.Lib.Time

/-!
# Cache-Control

`chromulate-cache/src/directive.rs`. The code cuts every line at every comma and skips a line
`to_str` cannot read; the grammar cuts outside quoted strings only, and lets a quoted string
hold any byte. `Carries` is the grammar's reading of a message, and two theorems compare the
code's with it:

* **`flag_of_carries`** — a directive that stands in a line `to_str` reads is seen;
* **`exists_grant_of_flag`** — a grant that is seen is there, unless it was inside a quoted string.
-/

namespace Chromulate.Cache

open HeaderMap Text

/-! ## The code -/

structure CacheControl where
  noStore : Bool := false
  noCache : Bool := false
  isPrivate : Bool := false
  isPublic : Bool := false
  mustRevalidate : Bool := false
  immutable : Bool := false
  maxAge : Option Nat := none
  sMaxage : Option Nat := none
  deriving DecidableEq

/-- `unquote`: both quotes or none. -/
def unquote (value : Str) : Str :=
  ((stripPrefix ['"'] value).bind (stripSuffix ['"'])).getD value

def u64Max : Nat := 2 ^ 64 - 1

/-- `delta_seconds`: a number too large to represent is the largest there is. -/
def deltaSeconds (value : Str) : Option Nat :=
  if value.isEmpty || !value.all Char.isDigit then none
  else some ((parseUnsigned u64Max value).getD u64Max)

/-- The name and the argument of a directive. -/
def directiveOf (token : Str) : Str × Option Str :=
  match splitOnce '=' token with
  | some (name, argument) => (trim name, some (unquote (trim argument)))
  | none => (token, none)

namespace CacheControl

/-- What one directive, named in lower case, changes. -/
def set (cc : CacheControl) (name : Str) (argument : Option Str) : CacheControl :=
  if name = "no-store".toList then { cc with noStore := true }
  else if name = "no-cache".toList then { cc with noCache := true }
  else if name = "private".toList then { cc with isPrivate := true }
  else if name = "public".toList then { cc with isPublic := true }
  else if name = "must-revalidate".toList then { cc with mustRevalidate := true }
  else if name = "immutable".toList then { cc with immutable := true }
  else if name = "max-age".toList then
    { cc with maxAge := (argument.bind deltaSeconds).or cc.maxAge }
  else if name = "s-maxage".toList then
    { cc with sMaxage := (argument.bind deltaSeconds).or cc.sMaxage }
  else cc

/-- One piece of the loop in `absorb`. -/
def absorbPiece (cc : CacheControl) (piece : Str) : CacheControl :=
  let token := trim piece
  if token.isEmpty then cc
  else cc.set (toAsciiLowercase (directiveOf token).1) (directiveOf token).2

def absorb (cc : CacheControl) (text : Str) : CacheControl :=
  (text.splitOn ',').foldl absorbPiece cc

/-- One line of the loop in `of`: a line that is not text is passed over. -/
def absorbLine (cc : CacheControl) (value : HeaderValue) : CacheControl :=
  match value.toStr with
  | some text => cc.absorb text
  | none => cc

def of (headers : HeaderMap) : CacheControl :=
  (getAll headers .cacheControl).foldl absorbLine {}

/-- Whether a `Pragma` line asks for `no-cache`. -/
def asksNoCache (value : HeaderValue) : Bool :=
  match value.toStr with
  | some text => (text.splitOn ',').any fun t =>
    toAsciiLowercase (trim t) = "no-cache".toList
  | none => false

/-- `CacheControl::of_request`: `Pragma` counts when there is no `Cache-Control` at all. -/
def ofRequest (headers : HeaderMap) : CacheControl :=
  let parsed := of headers
  if !containsKey headers .cacheControl && (getAll headers .pragma).any asksNoCache then
    { parsed with noCache := true }
  else parsed

def explicitLifetime (cc : CacheControl) : Option Duration := cc.maxAge.map Duration.fromSecs

theorem of_congr {headers other : HeaderMap}
    (h : getAll headers .cacheControl = getAll other .cacheControl) : of headers = of other := by
  rw [of, of, h]

@[simp] theorem noStore_ofRequest (headers : HeaderMap) :
    (ofRequest headers).noStore = (of headers).noStore := by
  unfold ofRequest
  dsimp only
  split <;> rfl

end CacheControl

/-! ## Flags and the pieces that raise them -/

/-- The directive a piece between separators names. -/
def directiveName (piece : Str) : Str :=
  toAsciiLowercase (directiveOf (trim piece)).1

/-- The names of all pieces of a text cut at every comma. -/
def pieceNames (text : Str) : List Str := (text.splitOn ',').map directiveName

/-- What a directive can change: one thing, or nothing. -/
inductive CacheControl.Changed (cc : CacheControl) : Str → CacheControl → Prop where
  | noStore : Changed cc "no-store".toList { cc with noStore := true }
  | noCache : Changed cc "no-cache".toList { cc with noCache := true }
  | isPrivate : Changed cc "private".toList { cc with isPrivate := true }
  | isPublic : Changed cc "public".toList { cc with isPublic := true }
  | mustRevalidate : Changed cc "must-revalidate".toList { cc with mustRevalidate := true }
  | immutable : Changed cc "immutable".toList { cc with immutable := true }
  | maxAge (age : Option Nat) : Changed cc "max-age".toList { cc with maxAge := age }
  | sMaxage (age : Option Nat) : Changed cc "s-maxage".toList { cc with sMaxage := age }
  | nothing (name : Str) : Changed cc name cc

theorem CacheControl.changed_set (cc : CacheControl) (n : Str) (a : Option Str) :
    cc.Changed n (cc.set n a) := by
  unfold CacheControl.set
  split_ifs with h₁ h₂ h₃ h₄ h₅ h₆ h₇ h₈
  · exact h₁ ▸ .noStore
  · exact h₂ ▸ .noCache
  · exact h₃ ▸ .isPrivate
  · exact h₄ ▸ .isPublic
  · exact h₅ ▸ .mustRevalidate
  · exact h₆ ▸ .immutable
  · exact h₇ ▸ .maxAge _
  · exact h₈ ▸ .sMaxage _
  · exact .nothing n

/-- A flag that only the directive `name` raises. -/
structure Reports (flag : CacheControl → Bool) (name : Str) : Prop where
  initially : flag {} = false := by rfl
  only : ∀ {cc cc' n}, CacheControl.Changed cc n cc' → flag cc' → flag cc ∨ n = name := by
    intro cc cc' n hchange h
    cases hchange <;> first | exact Or.inl h | exact Or.inr rfl

/-- A flag that the directive `name` raises, and that then stays. -/
structure Raises (flag : CacheControl → Bool) (name : Str) : Prop where
  ne_nil : name ≠ [] := by decide
  stays : ∀ {cc cc' n}, CacheControl.Changed cc n cc' → flag cc → flag cc' := by
    intro cc cc' n hchange h
    cases hchange <;> first | exact h | rfl
  raised : ∀ {cc : CacheControl} {a}, flag (cc.set name a) := by intros; rfl

theorem reports_isPublic : Reports CacheControl.isPublic "public".toList := {}

theorem reports_mustRevalidate : Reports CacheControl.mustRevalidate "must-revalidate".toList := {}

theorem reports_sMaxage : Reports (fun cc => cc.sMaxage.isSome) "s-maxage".toList := {}

theorem raises_noStore : Raises CacheControl.noStore "no-store".toList := {}

theorem raises_noCache : Raises CacheControl.noCache "no-cache".toList := {}

theorem raises_isPrivate : Raises CacheControl.isPrivate "private".toList := {}

section Reading

variable {flag : CacheControl → Bool} {name : Str} {headers : HeaderMap}

variable {cc : CacheControl}

theorem Reports.of_absorbPiece (h : Reports flag name) {piece : Str}
    (hf : flag (cc.absorbPiece piece)) : flag cc ∨ directiveName piece = name := by
  unfold CacheControl.absorbPiece at hf
  dsimp only at hf
  split at hf
  · exact Or.inl hf
  · exact h.only (cc.changed_set _ _) hf

theorem Reports.of_pieces (h : Reports flag name) {pieces : List Str}
    (hf : flag (pieces.foldl CacheControl.absorbPiece cc)) :
    flag cc ∨ name ∈ pieces.map directiveName := by
  induction pieces generalizing cc with
  | nil => exact Or.inl hf
  | cons piece pieces ih =>
    rcases ih hf with hcc | hmem
    · rcases h.of_absorbPiece hcc with hcc | rfl
      · exact Or.inl hcc
      · exact Or.inr List.mem_cons_self
    · exact Or.inr (List.mem_cons_of_mem _ hmem)

theorem Reports.of_lines (h : Reports flag name) {values : List HeaderValue}
    (hf : flag (values.foldl CacheControl.absorbLine cc)) :
    flag cc ∨ ∃ value ∈ values, value.toStr.isSome ∧ name ∈ pieceNames value.latin1 := by
  induction values generalizing cc with
  | nil => exact Or.inl hf
  | cons value values ih =>
    rcases ih hf with hcc | ⟨v, hv, hread⟩
    · unfold CacheControl.absorbLine at hcc
      split at hcc
      · rename_i text htext
        rcases h.of_pieces hcc with hcc | hname
        · exact Or.inl hcc
        · refine Or.inr ⟨value, List.mem_cons_self, by rw [htext]; rfl, ?_⟩
          rw [HeaderValue.latin1_of_toStr htext]
          exact hname
      · exact Or.inl hcc
    · exact Or.inr ⟨v, List.mem_cons_of_mem _ hv, hread⟩

theorem Raises.absorbPiece_stays (h : Raises flag name) (piece : Str) (hf : flag cc) :
    flag (cc.absorbPiece piece) := by
  unfold CacheControl.absorbPiece
  dsimp only
  split
  · exact hf
  · exact h.stays (cc.changed_set _ _) hf

theorem Raises.absorbPiece_raised (h : Raises flag name) (cc : CacheControl) {piece : Str}
    (hname : directiveName piece = name) : flag (cc.absorbPiece piece) := by
  unfold CacheControl.absorbPiece
  dsimp only
  split
  · rename_i hempty
    rw [List.isEmpty_iff] at hempty
    rw [directiveName, hempty] at hname
    exact absurd hname.symm h.ne_nil
  · show flag (cc.set (directiveName piece) _)
    rw [hname]
    exact h.raised

theorem Raises.pieces_stay (h : Raises flag name) (pieces : List Str) (hf : flag cc) :
    flag (pieces.foldl CacheControl.absorbPiece cc) := by
  induction pieces generalizing cc with
  | nil => exact hf
  | cons piece pieces ih => exact ih (h.absorbPiece_stays piece hf)

theorem Raises.pieces_raised (h : Raises flag name) {pieces : List Str} (cc : CacheControl)
    (hname : name ∈ pieces.map directiveName) :
    flag (pieces.foldl CacheControl.absorbPiece cc) := by
  induction pieces generalizing cc with
  | nil => cases hname
  | cons piece pieces ih =>
    rcases List.mem_cons.mp hname with heq | hmem
    · exact h.pieces_stay pieces (h.absorbPiece_raised cc heq.symm)
    · exact ih _ hmem

theorem Raises.lines_stay (h : Raises flag name) (values : List HeaderValue) (hf : flag cc) :
    flag (values.foldl CacheControl.absorbLine cc) := by
  induction values generalizing cc with
  | nil => exact hf
  | cons value values ih =>
    refine ih ?_
    unfold CacheControl.absorbLine
    split
    · exact h.pieces_stay _ hf
    · exact hf

theorem Raises.lines_raised (h : Raises flag name) {values : List HeaderValue}
    {value : HeaderValue} {text : Str} (cc : CacheControl) (hvalue : value ∈ values)
    (htext : value.toStr = some text) (hname : name ∈ pieceNames text) :
    flag (values.foldl CacheControl.absorbLine cc) := by
  induction values generalizing cc with
  | nil => cases hvalue
  | cons v values ih =>
    rcases List.mem_cons.mp hvalue with rfl | hvalue
    · refine h.lines_stay values ?_
      rw [CacheControl.absorbLine, htext]
      exact h.pieces_raised cc hname
    · exact ih _ hvalue

end Reading

/-! ## The grammar -/

/-- The directives of a line: its elements, cut outside quoted strings. -/
def directives (value : HeaderValue) : List Str :=
  (QuotedList.elements ',' value.latin1).map directiveName

/-- A `Cache-Control` line of the message has the directive `name`. -/
def Carries (headers : HeaderMap) (name : Str) : Prop :=
  ∃ value ∈ getAll headers .cacheControl, name ∈ directives value

instance (headers : HeaderMap) (name : Str) : Decidable (Carries headers name) :=
  inferInstanceAs (Decidable (∃ value ∈ getAll headers .cacheControl, name ∈ directives value))

/-- If the message carries the directive, it does so in a line `to_str` reads. -/
def isLegible (headers : HeaderMap) (name : Str) : Bool :=
  !decide (Carries headers name) ||
    (getAll headers .cacheControl).any fun value =>
      value.toStr.isSome && (directives value).contains name

/-- The directives that let a response to an authorised request be stored. -/
def grants : List Str := ["public".toList, "must-revalidate".toList, "s-maxage".toList]

/-- If a line `to_str` reads shows a grant between two commas, the message carries one, and not
only inside a quoted string. -/
def grantsInTheOpen (headers : HeaderMap) : Bool :=
  !((getAll headers .cacheControl).any fun value =>
      value.toStr.isSome && grants.any (pieceNames value.latin1).contains) ||
    grants.any fun grant => Carries headers grant

variable {other : HeaderMap} {a b : Str}

theorem decide_carries_congr {headers : HeaderMap}
    (h : getAll headers .cacheControl = getAll other .cacheControl) (name : Str) :
    decide (Carries headers name) = decide (Carries other name) := by
  rw [decide_eq_decide, Carries, Carries, h]

theorem isLegible_congr {headers : HeaderMap}
    (h : getAll headers .cacheControl = getAll other .cacheControl) (name : Str) :
    isLegible headers name = isLegible other name := by
  rw [isLegible, isLegible, decide_carries_congr h, h]

theorem grantsInTheOpen_congr {headers : HeaderMap}
    (h : getAll headers .cacheControl = getAll other .cacheControl) :
    grantsInTheOpen headers = grantsInTheOpen other := by
  rw [grantsInTheOpen, grantsInTheOpen, h]
  simp only [decide_carries_congr h]

theorem isWhitespace_eq : isWhitespace '=' = false := by decide

theorem isWhitespace_comma : isWhitespace ',' = false := by decide

/-- What follows the first `=` has no part in the name. -/
theorem directiveName_of_eq (ha : '=' ∉ a) :
    directiveName (a ++ '=' :: b) =
      toAsciiLowercase (trim (a.dropWhile isWhitespace)) := by
  have hsplit : splitOnce '=' (trim (a ++ '=' :: b)) =
      some (a.dropWhile isWhitespace, b.rdropWhile isWhitespace) := by
    rw [trim, trimMatches_append_cons isWhitespace_eq, splitOnce_eq_some]
    exact ⟨rfl, fun h => ha ((List.dropWhile_suffix _).subset h)⟩
  rw [directiveName, directiveOf, hsplit]

/-- Trimming and lower case keep a comma. -/
theorem comma_mem_lower_trim : ',' ∈ toAsciiLowercase (trim (a ++ ',' :: b)) := by
  rw [trim, trimMatches_append_cons isWhitespace_comma]
  exact List.mem_map.mpr ⟨',', by simp, by decide⟩

/-- A comma before the first `=` stays in the name. -/
theorem comma_mem_directiveName (ha : '=' ∉ a) : ',' ∈ directiveName (a ++ ',' :: b) := by
  have htrim : trim (a ++ ',' :: b) =
      (a.dropWhile isWhitespace ++ [',']) ++ b.rdropWhile isWhitespace := by
    rw [trim, trimMatches_append_cons isWhitespace_comma]
    simp
  have hfront : '=' ∉ a.dropWhile isWhitespace ++ [','] := by
    intro h
    rcases List.mem_append.mp h with h | h
    · exact ha ((List.dropWhile_suffix _).subset h)
    · exact absurd h (by decide)
  rw [directiveName, directiveOf, htrim, splitOnce_append hfront]
  cases splitOnce '=' (b.rdropWhile isWhitespace) with
  | none => exact List.mem_map.mpr ⟨',', by simp, by decide⟩
  | some p =>
    show ',' ∈ toAsciiLowercase (trim ((_ ++ [',']) ++ p.1))
    rw [List.append_assoc]
    exact comma_mem_lower_trim

/-- An element and the piece it starts with name the same directive, if either does. -/
theorem directiveName_of_extends {p e name : Str} (h : QuotedList.Extends ',' p e)
    (hname : directiveName e = name) (hcomma : ',' ∉ name) : directiveName p = name := by
  rcases h with rfl | ⟨rest, rfl⟩
  · exact hname
  · by_cases hp : '=' ∈ p
    · obtain ⟨a, b, rfl, ha⟩ := List.eq_append_cons_of_mem hp
      rw [← hname, List.append_assoc, List.cons_append, directiveName_of_eq ha,
        directiveName_of_eq ha]
    · exact absurd (hname ▸ comma_mem_directiveName hp) hcomma

theorem mem_pieceNames_of_mem_directives {value : HeaderValue} {name : Str}
    (hcomma : ',' ∉ name) (h : name ∈ directives value) : name ∈ pieceNames value.latin1 := by
  obtain ⟨e, he, hname⟩ := List.mem_map.mp h
  obtain ⟨p, hp, hext⟩ := QuotedList.exists_piece_of_mem_elements he
  exact List.mem_map.mpr ⟨p, hp, directiveName_of_extends hext hname hcomma⟩

/-! ## The two readings compared -/

section Comparison

variable {flag : CacheControl → Bool} {name : Str} {headers : HeaderMap}

/-- **A directive in a line that can be read is seen.** -/
theorem flag_of_carries (h : Raises flag name) (hcomma : ',' ∉ name)
    (hlegible : isLegible headers name) (hc : Carries headers name) :
    flag (CacheControl.of headers) := by
  simp only [isLegible, hc, decide_true, Bool.not_true, Bool.false_or, List.any_eq_true,
    Bool.and_eq_true, List.contains_eq_mem, decide_eq_true_eq] at hlegible
  obtain ⟨value, hvalue, hread, hname⟩ := hlegible
  obtain ⟨text, htext⟩ := Option.isSome_iff_exists.mp hread
  refine h.lines_raised {} hvalue htext ?_
  rw [← HeaderValue.latin1_of_toStr htext]
  exact mem_pieceNames_of_mem_directives hcomma hname

theorem not_carries_of_flag (h : Raises flag name) (hcomma : ',' ∉ name)
    (hlegible : isLegible headers name) (hf : flag (CacheControl.of headers) = false) :
    ¬ Carries headers name := by
  intro hc
  rw [flag_of_carries h hcomma hlegible hc] at hf
  cases hf

/-- **A grant that is seen is there**, unless it stood inside a quoted string. -/
theorem exists_grant_of_flag (h : Reports flag name) (hgrant : name ∈ grants)
    (hopen : grantsInTheOpen headers) (hf : flag (CacheControl.of headers)) :
    ∃ grant ∈ grants, Carries headers grant := by
  rcases h.of_lines hf with hinit | ⟨value, hvalue, hread, hname⟩
  · rw [h.initially] at hinit
    cases hinit
  · have hseen : ((getAll headers .cacheControl).any fun value =>
        value.toStr.isSome && grants.any (pieceNames value.latin1).contains) = true := by
      refine List.any_eq_true.mpr ⟨value, hvalue, ?_⟩
      rw [hread, Bool.true_and, List.any_eq_true]
      exact ⟨name, hgrant, by simpa using hname⟩
    rw [grantsInTheOpen, hseen, Bool.not_true, Bool.false_or, List.any_eq_true] at hopen
    obtain ⟨grant, hmem, hc⟩ := hopen
    exact ⟨grant, hmem, of_decide_eq_true hc⟩

end Comparison

end Chromulate.Cache
