import SheepCoro.Lib.History
import SheepCoro.Calls.Body
import Mathlib.Data.List.ReduceOption

/-!
# Coroutines that call each other

`include/coro/task.hpp` as a machine on a heap of frames.  A frame has a
promise with a container and a continuation, and tasks in its local variables,
each a handle or null.  `SheepCoro.Engine` has the same frames with a body
that only suspends and awaits, and what the engine does with a handle behind
its resume; here a body computes.

`co_await` stores the own handle as the continuation of the task and transfers
to it, unless the task is done.  At the end of a body its value, or its
exception, goes into the container, the local tasks are destroyed with their
frames, and `final_awaitable` transfers to the continuation; without one the
resume that the engine has called returns.  A coroutine that is resumed behind
a `co_await` calls `result` of the promise.

The container is the general one, so the tasks of this machine are those with
no result, or with a result whose type is not a `pod_type`.  `promise<void>` has
an exception pointer in the place of the container and differs in nothing that
is read behind the end of a body.  A task with a `pod_type` has another
container (`Container.Pod`).  What such a task returns arrives in the same way,
but its `result` is `noexcept`: an exception that leaves its body ends the
process at the `co_await`, and so it has no meaning here.

Any number of root tasks run at a time, each on a thread of its own, so a step
is a step of any frame that runs.  A step takes one function of the machinery.
Of which root a frame is, and how deep in its calls, is not in the code; `root`
and `depth` say so, and a coroutine does not depend on them.
-/

namespace SheepCoro.Calls

open Lib

open Container (Call Outcome Variant)

variable {T E Q A φ : Type} [DecidableEq φ]

/-- Where a coroutine is. -/
inductive Status (T E Q A : Type)
  /-- At the initial suspend point. -/
  | created (b : Body T E Q A)
  | running (b : Body T E Q A)
  /-- Suspended at a `co_await` on the `i`-th local task. -/
  | joining (i : Nat) (k : Outcome T E → Body T E Q A)
  /-- About to call `await_resume` of that task. -/
  | joined (i : Nat) (k : Outcome T E → Body T E Q A)
  /-- Suspended at another awaiter. -/
  | asking (q : Q) (k : A → Body T E Q A)
  /-- At the final suspend point. -/
  | done

structure Frame (T E Q A φ : Type) where
  root : φ
  depth : Nat
  status : Status T E Q A
  /-- `m_coroutine` of the local tasks. -/
  tasks : List (Option φ)
  /-- The container of the promise, or the exception pointer of
  `promise<void>`. -/
  container : Variant T E
  /-- `m_continuation` of the promise. -/
  continuation : Option φ

structure State (T E Q A φ : Type) where
  frames : φ → Option (Frame T E Q A φ)

inductive Label (T E Q A φ : Type)
  /-- A root task is created at `r`. -/
  | spawn (r : φ) (b : Body T E Q A)
  /-- The root task at `r` is resumed for the first time. -/
  | start (r : φ)
  /-- The coroutine at `f` goes on; a new frame would be at `g`. -/
  | run (f g : φ)
  /-- The coroutine at `f` is resumed with the answer to its request. -/
  | answer (f : φ) (a : A)
  /-- The frame of a root task that is done is destroyed. -/
  | clean (r : φ)

def newFrame (root : φ) (depth : Nat) (b : Body T E Q A) : Frame T E Q A φ where
  root
  depth
  status := .created b
  tasks := []
  container := .unsetReturnValue
  continuation := none

def State.put (s : State T E Q A φ) (f : φ) (fr : Frame T E Q A φ) : State T E Q A φ :=
  ⟨Function.update s.frames f (some fr)⟩

/-- At the final suspend point, without the local variables. -/
def Frame.ended (fr : Frame T E Q A φ) (c : Call T E) : Frame T E Q A φ :=
  { fr with
    status := .done
    tasks := []
    container := fr.container.call c }

/-- `destroy` of these handles.  None of them is of a frame that has local
tasks: such a coroutine was not started, or is done. -/
def State.destroy (s : State T E Q A φ) (gs : List φ) : State T E Q A φ :=
  ⟨fun x => if x ∈ gs then none else s.frames x⟩

/-- `final_suspend`: to the continuation, which goes on behind its
`co_await`. -/
def State.transfer (s : State T E Q A φ) : Option φ → Option (State T E Q A φ)
  | none => some s
  | some p =>
    match s.frames p with
    | some fr =>
      match fr.status with
      | .joining i k => some (s.put p { fr with status := .joined i k })
      | _ => none
    | none => none

/-- The end of a body, with a value or an exception. -/
def State.finish (s : State T E Q A φ) (f : φ) (fr : Frame T E Q A φ) (c : Call T E) :
    Option (State T E Q A φ) :=
  ((s.put f (fr.ended c)).destroy fr.tasks.reduceOption).transfer fr.continuation

/-- The next action of a coroutine. -/
def State.run (unset : E) (s : State T E Q A φ) (f g : φ) (fr : Frame T E Q A φ) :
    Option (State T E Q A φ) :=
  match fr.status with
  | .running (.ret value) => s.finish f fr (.returnValue value)
  | .running (.throw e) => s.finish f fr (.setException e)
  | .running (.ask q k) => some (s.put f { fr with status := .asking q k })
  | .running (.make child rest) =>
    match s.frames g with
    | none => some ((s.put f { fr with
        status := .running rest
        tasks := fr.tasks ++ [some g] }).put g (newFrame fr.root (fr.depth + 1) child))
    | some _ => none
  | .running (.join i k) =>
    match fr.tasks[i]? with
    | some (some h) =>
      match s.frames h with
      | some child =>
        match child.status with
        -- `await_ready`.
        | .done => some (s.put f { fr with status := .joined i k })
        | .created b => some ((s.put f { fr with status := .joining i k }).put h { child with
            status := .running b
            continuation := some f })
        | _ => none
      | none => none
    | _ => none
  | .running (.drop i rest) =>
    match fr.tasks[i]? with
    | some h => some ((s.put f { fr with
        status := .running rest
        tasks := fr.tasks.set i none }).destroy h.toList)
    | none => none
  | .joined i k =>
    match fr.tasks[i]? with
    | some (some h) =>
      match s.frames h with
      | some child => some (s.put f { fr with
          status := .running (k (child.container.result unset)) })
      | none => none
    | _ => none
  | .created _ | .joining .. | .asking .. | .done => none

def step (unset : E) (s : State T E Q A φ) : Label T E Q A φ → Option (State T E Q A φ)
  | .spawn r b =>
    match s.frames r with
    | none => some (s.put r (newFrame r 0 b))
    | some _ => none
  | .start r =>
    match s.frames r with
    | some fr =>
      match fr.status with
      | .created b => if fr.root = r then some (s.put r { fr with status := .running b }) else none
      | _ => none
    | none => none
  | .run f g =>
    match s.frames f with
    | some fr => s.run unset f g fr
    | none => none
  | .answer f a =>
    match s.frames f with
    | some fr =>
      match fr.status with
      | .asking _ k => some (s.put f { fr with status := .running (k a) })
      | _ => none
    | none => none
  | .clean r =>
    match s.frames r with
    | some fr =>
      match fr.status with
      | .done => if fr.root = r then some (s.destroy [r]) else none
      | _ => none
    | none => none

variable {unset : E} {s s' : State T E Q A φ} {a : Label T E Q A φ} {f g : φ}
  {fr : Frame T E Q A φ}

/-- What a coroutine does next, one case for each way to go on. -/
inductive RunCase (unset : E) (s : State T E Q A φ) (f g : φ) (fr : Frame T E Q A φ) :
    State T E Q A φ → Prop
  | finish {b : Body T E Q A} {c : Call T E} {s' : State T E Q A φ}
      (hstatus : fr.status = .running b)
      (hb : (∃ value, b = .ret value ∧ c = .returnValue value) ∨
        ∃ e, b = .throw e ∧ c = .setException e)
      (hfinish : s.finish f fr c = some s') : RunCase unset s f g fr s'
  | ask {q : Q} {k : A → Body T E Q A} (hstatus : fr.status = .running (.ask q k)) :
    RunCase unset s f g fr (s.put f { fr with status := .asking q k })
  | make {child rest : Body T E Q A} (hstatus : fr.status = .running (.make child rest))
      (hfree : s.frames g = none) :
    RunCase unset s f g fr ((s.put f { fr with
      status := .running rest
      tasks := fr.tasks ++ [some g] }).put g (newFrame fr.root (fr.depth + 1) child))
  | ready {i : Nat} {k : Outcome T E → Body T E Q A} {h : φ} {child : Frame T E Q A φ}
      (hstatus : fr.status = .running (.join i k)) (htask : fr.tasks[i]? = some (some h))
      (hchild : s.frames h = some child) (hdone : child.status = .done) :
    RunCase unset s f g fr (s.put f { fr with status := .joined i k })
  | join {i : Nat} {k : Outcome T E → Body T E Q A} {h : φ} {child : Frame T E Q A φ}
      {b : Body T E Q A} (hstatus : fr.status = .running (.join i k))
      (htask : fr.tasks[i]? = some (some h)) (hchild : s.frames h = some child)
      (hcreated : child.status = .created b) :
    RunCase unset s f g fr ((s.put f { fr with status := .joining i k }).put h { child with
      status := .running b
      continuation := some f })
  | drop {i : Nat} {rest : Body T E Q A} {h : Option φ}
      (hstatus : fr.status = .running (.drop i rest)) (htask : fr.tasks[i]? = some h) :
    RunCase unset s f g fr ((s.put f { fr with
      status := .running rest
      tasks := fr.tasks.set i none }).destroy h.toList)
  | joined {i : Nat} {k : Outcome T E → Body T E Q A} {h : φ} {child : Frame T E Q A φ}
      (hstatus : fr.status = .joined i k) (htask : fr.tasks[i]? = some (some h))
      (hchild : s.frames h = some child) :
    RunCase unset s f g fr (s.put f { fr with
      status := .running (k (child.container.result unset)) })

theorem run_cases (hs : s.run unset f g fr = some s') : RunCase unset s f g fr s' := by
  unfold State.run at hs
  split at hs
  · next value hstatus => exact .finish hstatus (.inl ⟨value, rfl, rfl⟩) hs
  · next e hstatus => exact .finish hstatus (.inr ⟨e, rfl, rfl⟩) hs
  · next q k hstatus =>
    cases hs
    exact .ask hstatus
  · next child rest hstatus =>
    split at hs <;> cases hs
    exact .make hstatus ‹_›
  · next i k hstatus =>
    split at hs
    · next h htask =>
      split at hs
      · next child hchild =>
        split at hs
        · cases hs
          exact .ready hstatus htask hchild ‹_›
        · cases hs
          exact .join hstatus htask hchild ‹_›
        · cases hs
      · cases hs
    · cases hs
  · next i rest hstatus =>
    split at hs <;> cases hs
    exact .drop hstatus ‹_›
  · next i k hstatus =>
    split at hs
    · next h htask =>
      split at hs <;> cases hs
      exact .joined hstatus htask ‹_›
    · cases hs
  · cases hs
  · cases hs
  · cases hs
  · cases hs

inductive StepCase (unset : E) (s : State T E Q A φ) :
    Label T E Q A φ → State T E Q A φ → Prop
  | spawn {r : φ} {b : Body T E Q A} (hfree : s.frames r = none) :
    StepCase unset s (.spawn r b) (s.put r (newFrame r 0 b))
  | start {r : φ} {fr : Frame T E Q A φ} {b : Body T E Q A} (hfr : s.frames r = some fr)
      (hstatus : fr.status = .created b) (hroot : fr.root = r) :
    StepCase unset s (.start r) (s.put r { fr with status := .running b })
  | run {f g : φ} {fr : Frame T E Q A φ} {s' : State T E Q A φ} (hfr : s.frames f = some fr)
      (hrun : RunCase unset s f g fr s') : StepCase unset s (.run f g) s'
  | answer {f : φ} {a : A} {fr : Frame T E Q A φ} {q : Q} {k : A → Body T E Q A}
      (hfr : s.frames f = some fr) (hstatus : fr.status = .asking q k) :
    StepCase unset s (.answer f a) (s.put f { fr with status := .running (k a) })
  | clean {r : φ} {fr : Frame T E Q A φ} (hfr : s.frames r = some fr)
      (hstatus : fr.status = .done) (hroot : fr.root = r) :
    StepCase unset s (.clean r) (s.destroy [r])

theorem step_cases (hs : step unset s a = some s') : StepCase unset s a s' := by
  cases a with
  | spawn r b =>
    simp only [step] at hs
    split at hs <;> cases hs
    exact .spawn ‹_›
  | start r =>
    simp only [step] at hs
    split at hs
    · split at hs
      · obtain ⟨hroot, ⟨⟩⟩ := Option.ite_none_right_eq_some.mp hs
        exact .start ‹_› ‹_› hroot
      · cases hs
    · cases hs
  | run f g =>
    simp only [step] at hs
    split at hs
    · exact .run ‹_› (run_cases hs)
    · cases hs
  | answer f a =>
    simp only [step] at hs
    split at hs
    · split at hs <;> cases hs
      exact .answer ‹_› ‹_›
    · cases hs
  | clean r =>
    simp only [step] at hs
    split at hs
    · split at hs
      · obtain ⟨hroot, ⟨⟩⟩ := Option.ite_none_right_eq_some.mp hs
        exact .clean ‹_› ‹_› hroot
      · cases hs
    · cases hs

/-- No coroutine was called. -/
def newState : State T E Q A φ where
  frames _ := none

def machine (unset : E) : Machine (State T E Q A φ) (Label T E Q A φ) where
  init s := s = newState
  step := step unset

end SheepCoro.Calls
