import SheepCoro.Lib.Tree
import SheepCoro.Lib.Machine
import SheepCoro.Container

/-!
# What a coroutine means

The body of a coroutine as a program with tasks in local variables: `make` is
`auto t = f();`, `join i` is `co_await t` for the `i`-th of them, and `drop i`
is the end of its life, by `destroy` or at the end of a full-expression.  So
`co_await f()` is a `make`, a `join` and a `drop`.  `ask` is a `co_await` on
anything that is not a task, and the answer is what its `await_resume`
returns.

`Body.eval` is the plain meaning, without frames, handles and continuations: a
task is started when it is awaited, its body runs as if it stood in the place
of the `co_await`, an exception that leaves it is thrown there, and a task that
is awaited again has its outcome at hand.

A second `co_await` of a task is taken for one of the task as an lvalue: a
value that was moved out of the promise is not the same value any more.  No
task has a `pod_type` for its result, since an exception does not get out of the
container of such a task.
-/

namespace SheepCoro.Calls

open Lib

open Container (Outcome)

/-- A body with values in `T`, exceptions in `E`, and answers in `A` for the
requests `Q`. -/
inductive Body (T E Q A : Type)
  /-- `co_return`. -/
  | ret (value : T)
  /-- An exception leaves the body. -/
  | throw (e : E)
  | ask (q : Q) (k : A → Body T E Q A)
  /-- A coroutine is called. -/
  | make (child rest : Body T E Q A)
  /-- `co_await` on a task.  The rest may handle an exception. -/
  | join (i : Nat) (k : Outcome T E → Body T E Q A)
  | drop (i : Nat) (rest : Body T E Q A)

/-- A local task. -/
inductive Cell (T E Q A : Type)
  /-- It was not started. -/
  | thunk (t : Tree Q A (Outcome T E))
  | value (o : Outcome T E)
  /-- It has no coroutine. -/
  | gone

variable {T E Q A : Type}

namespace Body

/-- What a body does, with its local tasks. -/
def eval : Body T E Q A → List (Cell T E Q A) → Tree Q A (Outcome T E)
  | .ret value, _ => .done (.returned value)
  | .throw e, _ => .done (.thrown e)
  | .ask q k, env => .ask q fun a => (k a).eval env
  | .make child rest, env => rest.eval (env ++ [.thunk (child.eval [])])
  | .join i k, env =>
    match env[i]? with
    | some (.thunk t) => t.bind fun o => (k o).eval (env.set i (.value o))
    | some (.value o) => (k o).eval env
    -- There is no promise to ask.
    | some .gone | none => .stuck
  | .drop i rest, env => if i < env.length then rest.eval (env.set i .gone) else .stuck

/-- The same with a silent step for each step of the machinery. -/
def pace : Body T E Q A → List (Cell T E Q A) → Tree Q A (Outcome T E)
  | .ret value, _ => .later (.done (.returned value))
  | .throw e, _ => .later (.done (.thrown e))
  | .ask q k, env => .later (.ask q fun a => (k a).pace env)
  | .make child rest, env => .later (rest.pace (env ++ [.thunk (child.pace [])]))
  | .join i k, env =>
    match env[i]? with
    | some (.thunk t) => .later (t.bind fun o => .later ((k o).pace (env.set i (.value o))))
    | some (.value o) => .later (.later ((k o).pace env))
    | some .gone | none => .stuck
  | .drop i rest, env => if i < env.length then .later (rest.pace (env.set i .gone)) else .stuck

end Body

def Cell.erase : Cell T E Q A → Cell T E Q A
  | .thunk t => .thunk t.erase
  | c => c

theorem erase_pace (b : Body T E Q A) (env : List (Cell T E Q A)) :
    (b.pace env).erase = b.eval (env.map Cell.erase) := by
  induction b generalizing env with
  | ret value => rfl
  | throw e => rfl
  | ask q k ih =>
    show Tree.ask q (fun a => ((k a).pace env).erase) = Tree.ask q _
    congr 1
    funext a
    exact ih a env
  | make child rest ihc ihr =>
    show (rest.pace _).erase = rest.eval _
    rw [ihr, List.map_append]
    show rest.eval (env.map Cell.erase ++ [.thunk (child.pace []).erase]) = _
    rw [ihc]
    rfl
  | join i k ih =>
    unfold Body.pace Body.eval
    rw [List.getElem?_map]
    split
    · next t heq =>
      rw [heq]
      show (t.bind _).erase = t.erase.bind _
      rw [Tree.erase_bind]
      congr 1
      funext o
      rw [Tree.erase_later, ih, List.map_set]
      rfl
    · next o heq =>
      rw [heq]
      exact ih o env
    · next heq =>
      rw [heq]
      rfl
    · next heq =>
      rw [heq]
      rfl
  | drop i rest ih =>
    unfold Body.pace Body.eval
    rw [List.length_map]
    split_ifs
    · rw [Tree.erase_later, ih, List.map_set]
      rfl
    · rfl

end SheepCoro.Calls
