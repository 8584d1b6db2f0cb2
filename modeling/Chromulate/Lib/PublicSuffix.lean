import Chromulate.Lib.Text

/-!
# The public suffix algorithm

A list of rules says which names are *public suffixes*: names under which anyone may register.
The rule that prevails on a name is the exception that matches it, or else the matching rule
with the most labels, or else the default rule `*`; an exception gives up its leftmost label.
The *registrable domain* is the public suffix with one more label.

Labels are taken from the right, the top-level one first, so "is a parent domain of" is "is a
list prefix of".

**Theorem (`registrable_eq_iff`).** A parent domain that is not itself a public suffix has the
registrable domain of the longer name exactly when the longer name's public suffix is shorter
than the parent. A rule nested below the parent is what breaks it.
-/

namespace Chromulate.PublicSuffix

open Text

/-! ## Rules on label lists -/

section Rules

variable {α : Type*} [DecidableEq α]

/-- One label of a rule. -/
inductive Part (α : Type*) where
  | label (text : α)
  | star
  deriving DecidableEq

/-- A rule, its top-level label first. -/
structure Rule (α : Type*) where
  parts : List (Part α)
  exception : Bool := false
  deriving DecidableEq

def Part.accepts : Part α → α → Bool
  | .label text, l => text = l
  | .star, _ => true

/-- The parts accept the first labels, one by one. -/
def accepts : List (Part α) → List α → Bool
  | [], _ => true
  | _ :: _, [] => false
  | p :: ps, l :: ls => p.accepts l && accepts ps ls

/-- The number of labels of the longest rule. -/
def longest (rules : List (Rule α)) : Nat := (rules.map fun r => r.parts.length).foldr max 0

/-- The rules that match, of the given kind. -/
def hits (rules : List (Rule α)) (exception : Bool) (labels : List α) : List (Rule α) :=
  rules.filter fun r => accepts r.parts labels && r.exception == exception

/-- The number of labels of the public suffix. -/
def suffixLen (rules : List (Rule α)) (labels : List α) : Nat :=
  if (hits rules true labels).isEmpty then max 1 (longest (hits rules false labels))
  else longest (hits rules true labels) - 1

variable {rules : List (Rule α)} {long short : List α}

omit [DecidableEq α] in
theorem length_le_longest {r : Rule α} (h : r ∈ rules) : r.parts.length ≤ longest rules := by
  unfold longest
  induction rules with
  | nil => cases h
  | cons s rules ih =>
    rw [List.map_cons, List.foldr_cons]
    rcases List.mem_cons.mp h with rfl | h
    · exact le_max_left _ _
    · exact (ih h).trans (le_max_right _ _)

/-- A rule that fits into the parent matches the parent if and only if it matches the name. -/
theorem accepts_iff_of_isPrefix {ps : List (Part α)} (h : short <+: long)
    (hlen : ps.length ≤ short.length) : accepts ps short = accepts ps long := by
  induction ps generalizing short long with
  | nil => simp [accepts]
  | cons p ps ih =>
    cases short with
    | nil => simp at hlen
    | cons l short =>
      obtain ⟨t, rfl⟩ := h
      simp only [accepts, List.cons_append]
      rw [ih (List.prefix_append short t) (by simpa using hlen)]

theorem length_le_of_accepts {ps : List (Part α)} {labels : List α} (h : accepts ps labels) :
    ps.length ≤ labels.length := by
  induction ps generalizing labels with
  | nil => simp
  | cons p ps ih =>
    cases labels with
    | nil => simp [accepts] at h
    | cons l labels =>
      simp only [accepts, Bool.and_eq_true] at h
      simpa using ih h.2

/-- The hits on a parent are the hits on the name, if none of those is longer than the parent. -/
theorem hits_eq_of_isPrefix {exception : Bool} (h : short <+: long)
    (hlen : longest (hits rules exception long) ≤ short.length) :
    hits rules exception short = hits rules exception long := by
  unfold hits
  apply List.filter_congr
  intro r hr
  by_cases he : r.exception = exception
  · by_cases hfit : r.parts.length ≤ short.length
    · rw [accepts_iff_of_isPrefix h hfit]
    · -- A rule too long for the parent matches neither name.
      have hshort : accepts r.parts short = false := by
        by_contra hc
        exact hfit (length_le_of_accepts (by simpa using hc))
      have hlong : accepts r.parts long = false := by
        by_contra hc
        have hmem : r ∈ hits rules exception long := by
          rw [hits, List.mem_filter]
          exact ⟨hr, by simp [he, Bool.not_eq_false _ ▸ hc]⟩
        exact hfit ((length_le_longest hmem).trans hlen)
      rw [hshort, hlong]
  · rw [beq_eq_false_iff_ne.mpr he, Bool.and_false, Bool.and_false]

omit [DecidableEq α] in
theorem longest_eq_zero_of_isEmpty (h : rules.isEmpty) : longest rules = 0 := by
  rw [List.isEmpty_iff] at h
  subst h
  rfl

/-- **The public suffix is decided within the parent** when it is shorter than the parent. -/
theorem suffixLen_eq_of_isPrefix (h : short <+: long) (hlt : suffixLen rules long < short.length) :
    suffixLen rules short = suffixLen rules long := by
  unfold suffixLen at hlt ⊢
  by_cases hempty : (hits rules true long).isEmpty
  · have hexc : hits rules true short = hits rules true long :=
      hits_eq_of_isPrefix h (by rw [longest_eq_zero_of_isEmpty hempty]; omega)
    rw [if_pos hempty] at hlt
    rw [hexc, if_pos hempty, if_pos hempty, hits_eq_of_isPrefix h (by omega)]
  · rw [if_neg hempty] at hlt
    have hexc : hits rules true short = hits rules true long := hits_eq_of_isPrefix h (by omega)
    rw [hexc, if_neg hempty, if_neg hempty]

end Rules

/-! ## Names -/

/-- A name without the trailing dot of a fully qualified one. -/
def body (name : Str) : Str := if endsWith '.' name then name.dropLast else name

/-- The labels of a name, the top-level one first. -/
def labels (name : Str) : List Str := ((body name).splitOn '.').reverse

/-- The name with the given labels. -/
def render (dotted : Bool) (labels : List Str) : Str :=
  join ['.'] labels.reverse ++ if dotted then ['.'] else []

/-- The registrable domain of a name, unless it has no label to spare in front of its public
suffix. An empty label in front of everything is none. -/
def domain (rules : List (Rule Str)) (name : Str) : Option Str :=
  let n := suffixLen rules (labels name)
  if n < (labels name).length ∧ ¬((labels name).length = n + 1 ∧ (labels name).getLast? = some [])
  then some (render (endsWith '.' name) ((labels name).take (n + 1)))
  else none

/-- The registrable domain, or the whole name when there is none. -/
def registrable (rules : List (Rule Str)) (name : Str) : Str := (domain rules name).getD name

theorem labels_ne_nil (name : Str) : labels name ≠ [] := by
  simp [labels, List.splitOn_ne_nil]

theorem dot_not_mem_of_mem_labels {name l : Str} (h : l ∈ labels name) : '.' ∉ l :=
  not_mem_of_mem_splitOn (List.mem_reverse.mp h)

theorem render_labels (name : Str) : render (endsWith '.' name) (labels name) = name := by
  unfold render labels body
  rw [List.reverse_reverse]
  have hjoin (s : Str) : join ['.'] (s.splitOn '.') = s := List.intercalate_splitOn '.'
  rw [hjoin]
  by_cases h : endsWith '.' name
  · rw [if_pos h, if_pos h]
    have hlast : name.getLast? = some '.' := by simpa [endsWith] using h
    exact List.dropLast_append_getLast? '.' hlast
  · rw [if_neg h, if_neg h, List.append_nil]

theorem render_injective {dotted : Bool} {xs ys : List Str} (hx : xs ≠ []) (hy : ys ≠ [])
    (hxd : ∀ l ∈ xs, '.' ∉ l) (hyd : ∀ l ∈ ys, '.' ∉ l)
    (h : render dotted xs = render dotted ys) : xs = ys := by
  unfold render at h
  have hjoin := List.append_cancel_right h
  have hsplit : ∀ zs : List Str, zs ≠ [] → (∀ l ∈ zs, '.' ∉ l) →
      (join ['.'] zs.reverse).splitOn '.' = zs.reverse := fun zs hz hzd =>
    List.splitOn_intercalate '.' (fun l hl => hzd l (List.mem_reverse.mp hl)) (by simpa using hz)
  have := hsplit xs hx hxd
  rw [hjoin, hsplit ys hy hyd] at this
  exact (List.reverse_injective this).symm

/-- The registrable domain is made of the labels of the public suffix and one more, as far as
the name has them. -/
theorem registrable_eq (rules : List (Rule Str)) (name : Str) :
    registrable rules name = render (endsWith '.' name)
      ((labels name).take (suffixLen rules (labels name) + 1)) := by
  unfold registrable domain
  simp only
  split
  · rfl
  · rename_i hnone
    have hall : (labels name).length ≤ suffixLen rules (labels name) + 1 := by
      by_contra hc
      exact hnone ⟨by omega, fun h => by omega⟩
    rw [List.take_of_length_le hall, render_labels]
    rfl

/-! ## A name and its parents -/

section Parent

variable {rules : List (Rule Str)} {front parent : Str}

theorem endsWith_parent (hne : parent ≠ []) :
    endsWith '.' (front ++ '.' :: parent) = endsWith '.' parent := by
  cases parent with
  | nil => exact (hne rfl).elim
  | cons c cs => simp [endsWith, List.getLast?_append]

theorem labels_parent (hne : parent ≠ []) :
    labels (front ++ '.' :: parent) = labels parent ++ (front.splitOn '.').reverse := by
  have hbody : body (front ++ '.' :: parent) = front ++ '.' :: body parent := by
    unfold body
    rw [endsWith_parent hne]
    split
    · rw [List.dropLast_append_of_ne_nil (by simp), List.dropLast_cons_of_ne_nil hne]
    · rfl
  unfold labels
  rw [hbody, List.splitOn_append_cons_self, List.reverse_append]

theorem labels_isPrefix (front : Str) (hne : parent ≠ []) :
    labels parent <+: labels (front ++ '.' :: parent) := by
  rw [labels_parent hne]
  exact List.prefix_append _ _

theorem length_labels_parent (front : Str) (hne : parent ≠ []) :
    (labels parent).length < (labels (front ++ '.' :: parent)).length := by
  rw [labels_parent hne, List.length_append, List.length_reverse]
  have := List.length_pos_iff.mpr (List.splitOn_ne_nil '.' front)
  omega

theorem dot_not_mem_of_mem_take {name l : Str} {n : Nat} (h : l ∈ (labels name).take n) :
    '.' ∉ l :=
  dot_not_mem_of_mem_labels (List.mem_of_mem_take h)

theorem take_labels_ne_nil (name : Str) (n : Nat) : (labels name).take (n + 1) ≠ [] := by
  simp [labels_ne_nil]

/-- **When a parent shares the registrable domain.** -/
theorem registrable_eq_iff (hne : parent ≠ []) (hspare : domain rules parent ≠ none) :
    registrable rules parent = registrable rules (front ++ '.' :: parent) ↔
      suffixLen rules (labels (front ++ '.' :: parent)) < (labels parent).length := by
  have hpre := labels_isPrefix front hne
  have hlen := length_labels_parent front hne
  rw [registrable_eq, registrable_eq, endsWith_parent hne]
  set name := front ++ '.' :: parent
  constructor
  · intro h
    have hlists := render_injective (take_labels_ne_nil _ _) (take_labels_ne_nil _ _)
      (fun l hl => dot_not_mem_of_mem_take hl) (fun l hl => dot_not_mem_of_mem_take hl) h
    have hown : suffixLen rules (labels parent) < (labels parent).length := by
      by_contra hc
      exact hspare (by unfold domain; simp [hc])
    have := congrArg List.length hlists
    rw [List.length_take, List.length_take] at this
    omega
  · intro hlt
    rw [suffixLen_eq_of_isPrefix hpre hlt]
    set n := suffixLen rules (labels name)
    obtain ⟨t, ht⟩ := hpre
    rw [← ht, List.take_append_of_le_length (by omega)]

/-- When the registrable domain of a name is one given parent. -/
theorem eq_registrable_iff (hne : parent ≠ []) :
    parent = registrable rules (front ++ '.' :: parent) ↔
      suffixLen rules (labels (front ++ '.' :: parent)) + 1 = (labels parent).length := by
  have hpre := labels_isPrefix front hne
  have hlen := length_labels_parent front hne
  rw [registrable_eq, endsWith_parent hne]
  set name := front ++ '.' :: parent
  obtain ⟨t, ht⟩ := hpre
  constructor
  · intro h
    have h' : render (endsWith '.' parent) (labels parent) =
        render (endsWith '.' parent)
          ((labels name).take (suffixLen rules (labels name) + 1)) :=
      (render_labels parent).trans h
    have hlists := render_injective (labels_ne_nil _) (take_labels_ne_nil _ _)
      (fun l hl => dot_not_mem_of_mem_labels hl) (fun l hl => dot_not_mem_of_mem_take hl) h'
    have := congrArg List.length hlists
    rw [List.length_take] at this
    omega
  · intro heq
    rw [heq, ← ht, List.take_left, render_labels]

end Parent

end Chromulate.PublicSuffix
