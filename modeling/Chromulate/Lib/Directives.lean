import Chromulate.Lib.Text

/-!
# Lists of directives

A grammar that several header fields share: directives between commas, blanks around them, each a
token with an argument that is itself a token or a quoted string. Places of the list may be empty.
The types here hold exactly what the grammar derives, and `raw` writes it out.

Inside a quoted string a comma separates nothing and a backslash hides the next character, so the
text of an argument (`Argument.raw`) and what it stands for (`Argument.value`) differ. A reader
that strips the outer quotes only still gets the value if what it finds has neither a quote nor a
backslash in it (`value_of_isPrefix`).
-/

namespace Chromulate.Directives

open Text

/-! ## Characters -/

/-- `OWS`. -/
def isBlank (c : Char) : Bool := c == ' ' || c == '\t'

/-- `VCHAR`. -/
def isVchar (c : Char) : Bool := 0x21 ≤ c.toNat && c.toNat ≤ 0x7E

/-- `obs-text`. -/
def isObsText (c : Char) : Bool := 0x80 ≤ c.toNat && c.toNat ≤ 0xFF

def delimiters : List Char :=
  ['"', '(', ')', ',', '/', ':', ';', '<', '=', '>', '?', '@', '[', '\\', ']', '\x7b', '\x7d']

/-- `tchar`: a visible character that is no delimiter. -/
def isTchar (c : Char) : Bool := isVchar c && !(delimiters.contains c)

/-- What a backslash may stand before. -/
def isQuotable (c : Char) : Bool := isBlank c || isVchar c || isObsText c

/-- `qdtext`. -/
def isQdtext (c : Char) : Bool := isQuotable c && c != '"' && c != '\\'

variable {c : Char}

theorem isWhitespace_of_isBlank (h : isBlank c) : isWhitespace c := by
  simp only [isBlank, Bool.or_eq_true, beq_iff_eq] at h
  rcases h with rfl | rfl <;> decide

theorem not_isWhitespace_of_isTchar (h : isTchar c) : isWhitespace c = false := by
  simp only [isTchar, isVchar, Bool.and_eq_true, decide_eq_true_eq] at h
  have hbounds := h.1
  simp only [isWhitespace, Bool.or_eq_false_iff, Bool.and_eq_false_iff,
    decide_eq_false_iff_not, beq_eq_false_iff_ne, ne_eq]
  omega

theorem ne_of_isTchar {d : Char} (h : isTchar c) (hd : isTchar d = false) : c ≠ d := by
  rintro rfl
  rw [h] at hd
  cases hd

/-! ## Directives -/

structure Token where
  text : Str
  ne_nil : text ≠ []
  all_tchar : text.all isTchar

theorem Token.tchars (token : Token) : ∀ c ∈ token.text, isTchar c :=
  List.all_eq_true.mp token.all_tchar

/-- A character of a quoted string, as it is or behind a backslash. -/
inductive QuotedChar where
  | plain (c : Char) (h : isQdtext c)
  | pair (c : Char) (h : isQuotable c)

def QuotedChar.raw : QuotedChar → Str
  | .plain c _ => [c]
  | .pair c _ => ['\\', c]

def QuotedChar.value : QuotedChar → Char
  | .plain c _ => c
  | .pair c _ => c

inductive Argument where
  | token (word : Token)
  | quoted (content : List QuotedChar)

namespace Argument

/-- An argument as it is written. -/
def raw : Argument → Str
  | .token word => word.text
  | .quoted content => '"' :: (content.flatMap QuotedChar.raw ++ ['"'])

/-- What an argument stands for. -/
def value : Argument → Str
  | .token word => word.text
  | .quoted content => content.map QuotedChar.value

end Argument

structure Directive where
  name : Token
  argument : Option Argument

def Directive.raw (directive : Directive) : Str :=
  directive.name.text ++ (directive.argument.map fun argument => '=' :: argument.raw).getD []

/-- A place of the list. -/
structure Element where
  before : Str
  directive : Option Directive
  after : Str
  before_blank : ∀ c ∈ before, isBlank c
  after_blank : ∀ c ∈ after, isBlank c

def Element.raw (element : Element) : Str :=
  element.before ++ ((element.directive.map Directive.raw).getD [] ++ element.after)

/-- A list has at least one place. -/
structure Line where
  first : Element
  rest : List Element

namespace Line

def elements (line : Line) : List Element := line.first :: line.rest

/-- The directives of a line. -/
def directives (line : Line) : List Directive := line.elements.filterMap Element.directive

def raw (line : Line) : Str := join [','] (line.elements.map Element.raw)

end Line

/-! ## Facts for readers -/

theorem Token.not_mem (token : Token) (hc : isTchar c = false) : c ∉ token.text :=
  fun h => ne_of_isTchar (token.tchars c h) hc rfl

/-- Cutting joined texts at every separator is cutting each of them. -/
theorem splitOn_join (c : Char) (first : Str) (rest : List Str) :
    (join [c] (first :: rest)).splitOn c =
      (first :: rest).flatMap fun text => text.splitOn c := by
  induction rest generalizing first with
  | nil => simp [join]
  | cons second rest ih =>
    have hjoin : join [c] (first :: second :: rest) =
        first ++ c :: join [c] (second :: rest) := by
      rw [join, List.intercalate_cons_cons, join]
      simp
    rw [hjoin, splitOn_append_cons, ih]
    rfl

/-- **Text up to a quote, with neither quote nor backslash in it, is the whole value.** -/
theorem value_of_isPrefix {content : List QuotedChar} {text : Str} (after : Str)
    (htext : ∀ c ∈ text, c ≠ '"' ∧ c ≠ '\\')
    (h : text ++ ['"'] <+: content.flatMap QuotedChar.raw ++ '"' :: after) :
    content.map QuotedChar.value = text := by
  induction content generalizing text with
  | nil =>
    cases text with
    | nil => rfl
    | cons c text =>
      exact absurd (List.cons_prefix_cons.mp h).1 (htext c List.mem_cons_self).1
  | cons char content ih =>
    cases char with
    | plain c hc =>
      cases text with
      | nil =>
        obtain ⟨rfl, -⟩ := List.cons_prefix_cons.mp h
        exact absurd hc (by decide)
      | cons d text =>
        obtain ⟨rfl, hrest⟩ := List.cons_prefix_cons.mp h
        have hvalue := ih (fun e he => htext e (List.mem_cons_of_mem _ he)) hrest
        rw [List.map_cons, hvalue]
        rfl
    | pair c hc =>
      cases text with
      | nil => exact absurd (List.cons_prefix_cons.mp h).1 (by decide)
      | cons d text =>
        exact absurd (List.cons_prefix_cons.mp h).1 (htext d List.mem_cons_self).2

end Chromulate.Directives
