import Mathlib.Tactic.Common

/-!
# Trees of requests

What a terminating program does that asks its surroundings for answers: it
ends with an outcome, or it asks and goes on with the answer, or it takes a
silent step, or what it does has no meaning.  Such a tree is inductive, so
every path through it is finite.

`Tree.bind` goes on with the outcome, and `Tree.erase` leaves the silent steps
out.  An interpreter that takes one silent step for each `later` comes to the
outcome or to the next request after finitely many (`Tree.steps`).
-/

namespace Lib

inductive Tree (Q A O : Type)
  | done (o : O)
  | ask (q : Q) (k : A → Tree Q A O)
  /-- A silent step. -/
  | later (t : Tree Q A O)
  | stuck

namespace Tree

variable {Q A O P : Type}

/-- Go on with the outcome. -/
def bind : Tree Q A O → (O → Tree Q A P) → Tree Q A P
  | .done o, f => f o
  | .ask q k, f => .ask q fun a => (k a).bind f
  | .later t, f => .later (t.bind f)
  | .stuck, _ => .stuck

/-- The tree without its silent steps. -/
def erase : Tree Q A O → Tree Q A O
  | .done o => .done o
  | .ask q k => .ask q fun a => (k a).erase
  | .later t => t.erase
  | .stuck => .stuck

/-- The number of silent steps up to the outcome or the next request. -/
def steps : Tree Q A O → Nat
  | .later t => t.steps + 1
  | _ => 0

@[simp] theorem done_bind (o : O) (f : O → Tree Q A P) : (done o).bind f = f o := rfl

@[simp] theorem ask_bind (q : Q) (k : A → Tree Q A O) (f : O → Tree Q A P) :
    (ask q k).bind f = .ask q fun a => (k a).bind f := rfl

@[simp] theorem later_bind (t : Tree Q A O) (f : O → Tree Q A P) :
    (later t).bind f = .later (t.bind f) := rfl

@[simp] theorem stuck_bind (f : O → Tree Q A P) : (stuck : Tree Q A O).bind f = .stuck := rfl

@[simp] theorem erase_done (o : O) : (done o : Tree Q A O).erase = .done o := rfl

@[simp] theorem erase_ask (q : Q) (k : A → Tree Q A O) :
    (ask q k).erase = .ask q fun a => (k a).erase := rfl

@[simp] theorem erase_later (t : Tree Q A O) : (later t).erase = t.erase := rfl

@[simp] theorem erase_stuck : (stuck : Tree Q A O).erase = .stuck := rfl

theorem erase_bind (t : Tree Q A O) (f : O → Tree Q A P) :
    (t.bind f).erase = t.erase.bind fun o => (f o).erase := by
  induction t with
  | done o => rfl
  | ask q k ih =>
    show ask q (fun a => ((k a).bind f).erase) = ask q fun a => (k a).erase.bind _
    congr 1
    funext a
    exact ih a
  | later t ih => exact ih
  | stuck => rfl

end Tree

end Lib
