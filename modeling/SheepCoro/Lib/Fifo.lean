import Mathlib.Tactic.Common

/-!
# Bounded queues

`Fifo σ T` is the interface of a bounded queue of values of `T` whose
representation is of type `σ`.  The plain one is `Fifo.list`: a list, the
oldest value first, with room for `n` of them.

A user of a queue enters one critical section after the other.  It puts a
value if the queue is not full, or takes one if it is not empty.
`Represents` says how a representation has to follow the list, operation by
operation, and `Represents.trace_eq` that then nobody can tell the two apart:
every sequence of sections gets the same answers and the same values.

`answers` and `values` are what a user sees of a queue that several threads
share: whether each section found room or a value, and the values in order.
-/

namespace Lib

universe u v

/-- The operations of a queue. -/
structure Fifo (σ : Type u) (T : Type v) where
  empty : σ → Bool
  full : σ → Bool
  put : T → σ → σ
  /-- The value that is taken next, if there is one. -/
  front : σ → Option T
  pop : σ → σ

namespace Fifo

variable {σ : Type u} {T : Type v}

/-- The list with room for `n` values. -/
def list (n : Nat) : Fifo (List T) T where
  empty := List.isEmpty
  full xs := decide (n ≤ xs.length)
  put v xs := xs ++ [v]
  front := List.head?
  pop := List.tail

/-- A critical section. -/
inductive Section (T : Type v)
  | push (v : T)
  | pop

/-- What a section gets to see. -/
structure Seen (T : Type v) where
  empty : Bool
  full : Bool
  taken : Option T

/-- The value that the section takes, and the queue after it. -/
def enter (Q : Fifo σ T) (q : σ) : Section T → Option T × σ
  | .push v => if Q.full q then (none, q) else (none, Q.put v q)
  | .pop => if Q.empty q then (none, q) else (Q.front q, Q.pop q)

/-- The queue after some sections. -/
def after (Q : Fifo σ T) : σ → List (Section T) → σ
  | q, [] => q
  | q, o :: os => after Q (Q.enter q o).2 os

/-- What the sections get to see, one after the other. -/
def trace (Q : Fifo σ T) : σ → List (Section T) → List (Seen T)
  | _, [] => []
  | q, o :: os => ⟨Q.empty q, Q.full q, (Q.enter q o).1⟩ :: trace Q (Q.enter q o).2 os

/-- Whether a section finds what it needs. -/
def answer (Q : Fifo σ T) (q : σ) : Section T → Bool
  | .push _ => !Q.full q
  | .pop => !Q.empty q

/-- The answers that the sections get, one after the other. -/
def answers (Q : Fifo σ T) : σ → List (Section T) → List Bool
  | _, [] => []
  | q, o :: os => Q.answer q o :: answers Q (Q.enter q o).2 os

/-- The values that the sections take, one after the other. -/
def values (Q : Fifo σ T) : σ → List (Section T) → List T
  | _, [] => []
  | q, o :: os => (Q.enter q o).1.toList ++ values Q (Q.enter q o).2 os

section Concat

variable (Q : Fifo σ T) (q : σ) (os : List (Section T)) (o : Section T)

theorem after_concat : Q.after q (os ++ [o]) = (Q.enter (Q.after q os) o).2 := by
  induction os generalizing q with
  | nil => rfl
  | cons p os ih => exact ih _

theorem answers_concat :
    Q.answers q (os ++ [o]) = Q.answers q os ++ [Q.answer (Q.after q os) o] := by
  induction os generalizing q with
  | nil => rfl
  | cons p os ih => exact congrArg (Q.answer q p :: ·) (ih _)

theorem values_concat :
    Q.values q (os ++ [o]) = Q.values q os ++ (Q.enter (Q.after q os) o).1.toList := by
  induction os generalizing q with
  | nil => exact List.append_nil _
  | cons p os ih =>
    show (Q.enter q p).1.toList ++ Q.values (Q.enter q p).2 (os ++ [o]) = _
    rw [ih, ← List.append_assoc]
    rfl

end Concat

/-- The queue follows the list with room for `n` values, where `R` says which
list a queue holds. -/
structure Represents (Q : Fifo σ T) (n : Nat) (R : σ → List T → Prop) : Prop where
  empty_iff : ∀ {q xs}, R q xs → (Q.empty q = true ↔ xs = [])
  full_iff : ∀ {q xs}, R q xs → (Q.full q = true ↔ n ≤ xs.length)
  put : ∀ {q xs v}, R q xs → Q.full q = false → R (Q.put v q) (xs ++ [v])
  pop : ∀ {q x xs}, R q (x :: xs) → Q.front q = some x ∧ R (Q.pop q) xs

variable {Q : Fifo σ T} {n : Nat} {R : σ → List T → Prop} {q : σ} {xs : List T}

theorem Represents.empty_eq (h : Q.Represents n R) (hR : R q xs) :
    Q.empty q = (list n).empty xs := by
  rw [Bool.eq_iff_iff, h.empty_iff hR]
  exact List.isEmpty_iff.symm

theorem Represents.full_eq (h : Q.Represents n R) (hR : R q xs) :
    Q.full q = (list n).full xs := by
  rw [Bool.eq_iff_iff, h.full_iff hR]
  simp [list]

/-- One section: the same value is taken, and the queue still holds what the
list holds. -/
theorem Represents.enter (h : Q.Represents n R) (hR : R q xs) (o : Section T) :
    (Q.enter q o).1 = ((list n).enter xs o).1 ∧ R (Q.enter q o).2 ((list n).enter xs o).2 := by
  have hempty := h.empty_eq hR
  have hfull := h.full_eq hR
  cases o with
  | push v =>
    simp only [Fifo.enter, ← hfull]
    cases hq : Q.full q with
    | true => exact ⟨rfl, hR⟩
    | false => exact ⟨rfl, h.put hR hq⟩
  | pop =>
    simp only [Fifo.enter, ← hempty]
    cases hq : Q.empty q with
    | true => exact ⟨rfl, hR⟩
    | false =>
      cases xs with
      | nil =>
        rw [(h.empty_iff hR).mpr rfl] at hq
        cases hq
      | cons x xs => exact h.pop hR

theorem Represents.after (h : Q.Represents n R) (hR : R q xs) (os : List (Section T)) :
    R (Q.after q os) ((list n).after xs os) := by
  induction os generalizing q xs with
  | nil => exact hR
  | cons o os ih => exact ih (h.enter hR o).2

/-- No sequence of sections tells the queue from the list. -/
theorem Represents.trace_eq (h : Q.Represents n R) (hR : R q xs) (os : List (Section T)) :
    Q.trace q os = (list n).trace xs os := by
  induction os generalizing q xs with
  | nil => rfl
  | cons o os ih =>
    obtain ⟨htaken, hnext⟩ := h.enter hR o
    simp only [trace]
    rw [h.empty_eq hR, h.full_eq hR, htaken, ih hnext]

end Fifo

end Lib
