import Chromulate.Lib.Text

/-!
# Lists with quoted strings

A list in a header field is cut at the separators that stand *outside* quoted strings, where a
backslash inside quotes hides the character after it. Software often cuts at every separator
instead. This file relates the two: **every element of the real list starts with a piece of the
crude cut** (`exists_piece_of_mem_elements`), so a reader of pieces sees at least the start of
every element, and may besides take the inside of a quoted string for one.
-/

namespace Chromulate.QuotedList

/-- Where a scan stands relative to the quotes. -/
inductive Mode where
  | plain
  | quoted
  | escaped
  deriving DecidableEq

/-- The mode after one more character. -/
def Mode.next : Mode → Char → Mode
  | .plain, c => if c = '"' then .quoted else .plain
  | .quoted, c => if c = '"' then .plain else if c = '\\' then .escaped else .quoted
  | .escaped, _ => .quoted

/-- Cut at the separators met in plain mode. -/
def elementsFrom (sep : Char) : Mode → Str → List Str
  | _, [] => [[]]
  | mode, c :: rest =>
    if mode = .plain ∧ c = sep then [] :: elementsFrom sep .plain rest
    else (elementsFrom sep (mode.next c) rest).modifyHead (c :: ·)

/-- The elements of a list: cut at the separators outside quoted strings. -/
def elements (sep : Char) (s : Str) : List Str := elementsFrom sep .plain s

/-- `e` is `p`, or goes on after it with a separator. -/
def Extends (sep : Char) (p e : Str) : Prop := e = p ∨ ∃ rest, e = p ++ sep :: rest

theorem Extends.cons {sep : Char} {p e : Str} (h : Extends sep p e) (c : Char) :
    Extends sep (c :: p) (c :: e) := by
  rcases h with rfl | ⟨rest, rfl⟩
  · exact Or.inl rfl
  · exact Or.inr ⟨rest, rfl⟩

/-- The first elements correspond, and each later element starts with some later piece. -/
def Aligned (sep : Char) (pieces es : List Str) : Prop :=
  ∃ p ps e rest, pieces = p :: ps ∧ es = e :: rest ∧ Extends sep p e ∧
    ∀ x ∈ rest, ∃ q ∈ ps, Extends sep q x

theorem aligned_elementsFrom (sep : Char) (mode : Mode) (s : Str) :
    Aligned sep (s.splitOn sep) (elementsFrom sep mode s) := by
  induction s generalizing mode with
  | nil => exact ⟨[], [], [], [], by simp, rfl, Or.inl rfl, by simp⟩
  | cons c s ih =>
    rw [elementsFrom]
    by_cases hc : c = sep
    · subst hc
      have hsplit : (c :: s).splitOn c = [] :: s.splitOn c := by
        rw [List.splitOn_cons_eq_if_modifyHead]; simp
      by_cases hm : mode = .plain
      · obtain ⟨p, ps, e, rest, hp, he, hpe, hrest⟩ := ih .plain
        rw [if_pos ⟨hm, rfl⟩, hsplit]
        refine ⟨[], _, [], _, rfl, rfl, Or.inl rfl, ?_⟩
        rw [hp, he]
        intro x hx
        rcases List.mem_cons.mp hx with rfl | hx
        · exact ⟨p, List.mem_cons_self, hpe⟩
        · obtain ⟨q, hq, hqx⟩ := hrest x hx
          exact ⟨q, List.mem_cons_of_mem _ hq, hqx⟩
      · -- a separator inside quotes: the piece ends here and the element goes on
        obtain ⟨p, ps, e, rest, hp, he, -, hrest⟩ := ih (mode.next c)
        rw [if_neg fun h => hm h.1, hsplit, he, hp]
        refine ⟨[], _, c :: e, rest, rfl, rfl, Or.inr ⟨e, rfl⟩, fun x hx => ?_⟩
        obtain ⟨q, hq, hqx⟩ := hrest x hx
        exact ⟨q, List.mem_cons_of_mem _ hq, hqx⟩
    · obtain ⟨p, ps, e, rest, hp, he, hpe, hrest⟩ := ih (mode.next c)
      have hsplit : (c :: s).splitOn sep = (c :: p) :: ps := by
        rw [List.splitOn_cons_eq_if_modifyHead, hp]; simp [hc]
      rw [if_neg fun h => hc h.2, he, hsplit]
      exact ⟨c :: p, ps, c :: e, rest, rfl, rfl, hpe.cons c, hrest⟩

/-- **Every element of the list starts with a piece of the cut at every separator.** -/
theorem exists_piece_of_mem_elements {sep : Char} {s e : Str} (h : e ∈ elements sep s) :
    ∃ p ∈ s.splitOn sep, Extends sep p e := by
  obtain ⟨p, ps, e₀, rest, hp, he, hpe, hrest⟩ := aligned_elementsFrom sep .plain s
  rw [elements, he] at h
  rw [hp]
  rcases List.mem_cons.mp h with rfl | h
  · exact ⟨p, List.mem_cons_self, hpe⟩
  · obtain ⟨q, hq, hqx⟩ := hrest e h
    exact ⟨q, List.mem_cons_of_mem _ hq, hqx⟩

end Chromulate.QuotedList
