import Mathlib.Logic.Function.Basic
import Mathlib.Data.List.Basic

/-!
# Reading an updated function

A family of threads, counters or list heads is a function, and a step updates
it at one point.  These lemmas read a fact about the updated function back as
a fact about the old one.  A fact that has to hold at every point is
`Function.forall_update_iff`.
-/

namespace Lib

universe u v

variable {α : Type u} {β : Type v} [DecidableEq α] {f : α → β} {a x : α} {b c : β}

/-- A value of the updated function is the new one or an old one. -/
theorem update_eq_iff : Function.update f a b x = c ↔ x = a ∧ b = c ∨ x ≠ a ∧ f x = c := by
  by_cases hx : x = a
  · subst hx
    simp
  · simp [hx]

/-- A value other than the new one is an old one. -/
theorem of_update_eq (h : Function.update f a b x = c) (hne : b ≠ c) : f x = c := by
  rcases update_eq_iff.mp h with ⟨_, heq⟩ | ⟨_, hold⟩
  · exact absurd heq hne
  · exact hold

/-- Two points that keep a value keep it in the updated function. -/
theorem update_eq_of (hnew : x = a → b = c) (hold : x ≠ a → f x = c) :
    Function.update f a b x = c := by
  by_cases hx : x = a
  · exact update_eq_iff.mpr (.inl ⟨hx, hnew hx⟩)
  · exact update_eq_iff.mpr (.inr ⟨hx, hold hx⟩)

/-- A stack that is not empty stays so under a push. -/
theorem update_cons_ne_nil {f : α → List β} {bs : List β} (h : x ≠ a → f x ≠ []) :
    Function.update f a (b :: bs) x ≠ [] := by
  intro hnil
  rcases update_eq_iff.mp hnil with ⟨_, heq⟩ | ⟨hx, hold⟩
  · cases heq
  · exact h hx hold

end Lib
