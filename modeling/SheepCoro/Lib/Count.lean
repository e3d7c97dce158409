import Mathlib.Algebra.BigOperators.Group.Finset.Piecewise
import Mathlib.Algebra.BigOperators.Ring.Finset
import Mathlib.Data.Fintype.Basic
import Mathlib.Tactic.Abel

/-!
# Counting threads

The number of threads that are at a position is `count p f`, where `f` says
where every thread is.  A step moves one thread, so a count changes by at most
one (`count_update`), and so does a sum over the threads (`sum_update`).
-/

namespace Lib

universe u v

variable {α : Type u} {β : Type v} [Fintype α] [DecidableEq α]

/-- The number of threads whose position meets `p`. -/
def count (p : β → Bool) (f : α → β) : Nat :=
  (Finset.univ.filter fun x => p (f x) = true).card

section Sum

variable {γ : Type*} [AddCommMonoid γ] (g : β → γ) (f : α → β) (a : α) (b : β)

/-- The summand of one thread, and those of the others. -/
theorem sum_update_eq : ∑ x, g (Function.update f a b x) =
    g b + ∑ x ∈ Finset.univ \ {a}, g (f x) := by
  simp only [Function.apply_update (fun _ => g)]
  exact Finset.sum_update_of_mem (Finset.mem_univ a) ..

/-- One summand is replaced. -/
theorem sum_update :
    (∑ x, g (Function.update f a b x)) + g (f a) = (∑ x, g (f x)) + g b := by
  have hself := sum_update_eq g f a (f a)
  rw [Function.update_eq_self] at hself
  rw [sum_update_eq, hself]
  abel

end Sum

/-- One thread moves. -/
theorem count_update (p : β → Bool) (f : α → β) (a : α) (b : β) :
    count p (Function.update f a b) + (if p (f a) = true then 1 else 0) =
      count p f + (if p b = true then 1 else 0) := by
  simp only [count, Finset.card_filter]
  exact sum_update (fun y => if p y = true then 1 else 0) f a b

omit [DecidableEq α] in
/-- Nobody is there. -/
theorem count_eq_zero {p : β → Bool} {f : α → β} : count p f = 0 ↔ ∀ x, p (f x) = false := by
  simp [count, Finset.card_eq_zero, Finset.filter_eq_empty_iff]

end Lib
