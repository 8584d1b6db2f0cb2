import Mathlib.Data.List.Basic

/-!
# What a history leaves

A map whose content is decided by the last event that wrote to a key. `writes event k left` says
that an event writes to `k`, leaving a value or, with `none`, nothing; an event may write to no key.

A log lists the key each event used, if it used one; `lastAt` is when a key was used last.
-/

namespace Chromulate.History

variable {ρ κ ν : Type*} (writes : ρ → κ → Option ν → Prop)

/-- The last event of a history that wrote to a key left a value. -/
def Leaves (events : List ρ) (k : κ) (v : ν) : Prop :=
  ∃ front event rest, events = front ++ event :: rest ∧ writes event k (some v) ∧
    ∀ later ∈ rest, ∀ left, ¬ writes later k left

variable {writes}

theorem not_leaves_nil {k : κ} {v : ν} : ¬ Leaves writes [] k v := by
  rintro ⟨front, event, rest, hevents, _⟩
  simp at hevents

/-- One more event either writes to the key or leaves what there was. -/
theorem leaves_concat {events : List ρ} {event : ρ} {k : κ} {v : ν} :
    Leaves writes (events ++ [event]) k v ↔
      writes event k (some v) ∨ (∀ left, ¬ writes event k left) ∧ Leaves writes events k v := by
  constructor
  · rintro ⟨front, last, rest, hevents, hwrites, hrest⟩
    rcases List.eq_nil_or_concat rest with rfl | ⟨rest, later, rfl⟩
    · obtain ⟨_, hlast⟩ := List.append_inj' hevents rfl
      rw [List.cons.inj hlast |>.1]
      exact Or.inl hwrites
    · rw [List.concat_eq_append, ← List.cons_append, ← List.append_assoc] at hevents
      obtain ⟨hfront, hlater⟩ := List.append_inj' hevents rfl
      rw [List.cons.inj hlater |>.1]
      refine Or.inr ⟨hrest later (by simp), front, last, rest, hfront, hwrites, ?_⟩
      exact fun other hmem => hrest other (by simp [hmem])
  · rintro (hwrites | ⟨hnone, front, last, rest, rfl, hwrites, hrest⟩)
    · exact ⟨events, event, [], rfl, hwrites, by simp⟩
    · refine ⟨front, last, rest ++ [event], by simp, hwrites, ?_⟩
      intro later hmem left
      rcases List.mem_append.mp hmem with hmem | hmem
      · exact hrest later hmem left
      · rw [List.mem_singleton.mp hmem]
        exact hnone left

/-! ## Logs -/

section Log

variable [DecidableEq κ]

/-- When a key was last used: the number of events up to then. -/
def lastAt (log : List (Option κ)) (k : κ) : Nat :=
  log.length - log.reverse.findIdx (· = some k)

theorem lastAt_le (log : List (Option κ)) (k : κ) : lastAt log k ≤ log.length := Nat.sub_le _ _

theorem lastAt_concat (log : List (Option κ)) (used : Option κ) (k : κ) :
    lastAt (log ++ [used]) k = if used = some k then log.length + 1 else lastAt log k := by
  rw [lastAt, List.reverse_concat, List.findIdx_cons, List.length_append, List.length_singleton]
  by_cases hused : used = some k
  · simp [hused]
  · simp only [hused, decide_false, cond_false, if_false, lastAt]
    omega

end Log

end Chromulate.History
