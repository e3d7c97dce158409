import Mathlib.Logic.Function.Basic
import Mathlib.Data.Nat.ModEq

/-!
# Lists in a circular array

`RingAt m array head xs` says that the cells of an array of `m` slots hold
`xs`, one after the other from `head` on, where an index is taken modulo
`m`.  The head may be any number: it may count up without a bound, or be
reduced at any time to something that is equal to it modulo `m`
(`RingAt.congr`).  A queue grows at the end (`RingAt.push`) and shrinks at
the front, which is the definition.
-/

namespace Lib

variable {α : Type*}

/-- The cells from `head` on, modulo `m`, hold the list. -/
def RingAt (m : Nat) (array : Nat → α) : Nat → List α → Prop
  | _, [] => True
  | head, x :: xs => array (head % m) = x ∧ RingAt m array (head + 1) xs

namespace RingAt

variable {m : Nat} {array : Nat → α} {head : Nat} {xs : List α}

/-- Only the head modulo `m` matters. -/
theorem congr {head' : Nat} (hmod : head' % m = head % m) (h : RingAt m array head xs) :
    RingAt m array head' xs := by
  induction xs generalizing head head' with
  | nil => trivial
  | cons x xs ih =>
    refine ⟨?_, ih ?_ h.2⟩
    · rw [hmod]
      exact h.1
    · exact Nat.ModEq.add_right 1 hmod

/-- Two slots that are less than `m` apart are different. -/
theorem index_ne {d : Nat} (hpos : 0 < d) (hlt : d < m) : (head + d) % m ≠ head % m := by
  intro heq
  have hmod : head + d ≡ head + 0 [MOD m] := heq
  have hd : d ≡ 0 [MOD m] := Nat.ModEq.add_left_cancel' head hmod
  have hzero : d % m = 0 := by simpa [Nat.ModEq] using hd
  rw [Nat.mod_eq_of_lt hlt] at hzero
  omega

/-- A store behind the last element appends it. -/
theorem push {v : α} (h : RingAt m array head xs) (hlt : xs.length < m) :
    RingAt m (Function.update array ((head + xs.length) % m) v) head (xs ++ [v]) := by
  induction xs generalizing head with
  | nil =>
    refine ⟨?_, trivial⟩
    simp
  | cons x xs ih =>
    have hlen : xs.length + 1 < m := by simpa using hlt
    have hne : head % m ≠ (head + (x :: xs).length) % m :=
      (index_ne (by simp) (by simpa using hlt)).symm
    refine ⟨?_, ?_⟩
    · rw [Function.update_of_ne hne]
      exact h.1
    · have hrest := ih h.2 (by omega)
      have hidx : head + 1 + xs.length = head + (x :: xs).length := by
        simp only [List.length_cons]
        omega
      rwa [hidx] at hrest

end RingAt

end Lib
