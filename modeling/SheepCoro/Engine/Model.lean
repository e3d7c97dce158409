import SheepCoro.Lib.Machine
import Mathlib.Data.List.Basic

/-!
# Coroutine frames and the engines that resume them

`include/coro/task.hpp` and `src/engine.cpp` as a machine, for any number `n`
of workers with an engine each.  A frame is the promise of a `task` together
with what is left of its body.  A body is a tree: it may suspend on a
primitive or on I/O any number of times, and it may `co_await` further
tasks, each a temporary that dies as soon as the parent runs past the
`co_await`.  What a body computes is left out.

`co_await f()` stores the handle of the parent as the continuation of the
child and transfers to the child.  At the final suspend point
`final_awaitable` transfers to the continuation, if there is one.  So one
`resume()` of the engine may run through several frames before it returns.

The engine holds a queue of handles.  `exec_task` resumes a handle and then
asks *that handle* whether it is done, and `clean` destroys it when its
promise says that it is detached.  `submit_task` pushes onto the queue, and
when the queue is full it executes the task inline if it runs on a worker,
which need not be the worker of that engine.  The `exec_task` calls in
progress on a worker therefore form a stack.

A frame is suspended before its `await_suspend` is called.  As soon as that
has handed the frame to a primitive, anybody may resume it, while the rest
of `await_suspend` still runs inside of `resume()` and may submit tasks:
`cv_awaiter` unlocks the mutex there.

Reading a destroyed frame is undefined in C++.  The machine logs such a read
in `stale` and goes on with the last contents of the frame, which was at its
final suspend point when it was destroyed.
-/

namespace SheepCoro.Engine

open Lib

/-! ## Frames -/

/-- What is left of the body of a coroutine. -/
inductive Body
  /-- `co_return`, or the end of the body, or an exception that leaves it. -/
  | ret
  /-- A `co_await` that suspends on a primitive or on I/O. -/
  | suspend (rest : Body)
  /-- `co_await f()` on a temporary task with the given body. -/
  | await (child rest : Body)
deriving DecidableEq

inductive Status
  | suspended
  | running
  | done
  | destroyed
deriving DecidableEq

/-- `detail::coro_state`. -/
inductive CoroState
  | normal
  | detach
  | none
deriving DecidableEq

structure Frame where
  status : Status
  body : Body
  /-- `m_continuation` of the promise. -/
  continuation : Option Nat
  /-- `m_state` of the promise. -/
  state : CoroState

/-- Where an `exec_task` call is. -/
inductive Point
  /-- The frame `f` runs inside of `handle.resume()`. -/
  | frame (f : Nat)
  /-- A frame has suspended and is handed over, and the rest of its
  `await_suspend` runs inside of `handle.resume()`. -/
  | awaitSuspend
  /-- `handle.resume()` has returned. -/
  | returned
deriving DecidableEq

/-- One `exec_task` call in progress on a worker. -/
structure Call (n : Nat) where
  /-- The handle that the call was given. -/
  handle : Nat
  point : Point
  /-- The engine whose `submit_task` made the call on a full queue. -/
  inlineOf : Option (Fin n)
deriving DecidableEq

/-- `config::kQueCap` and `config::kMaxRecursiveDepth`. -/
structure Config where
  queCap : Nat
  maxRecursiveDepth : Nat

structure State (n : Nat) where
  /-- The frames by their address. -/
  frames : Nat → Frame
  /-- The next free address. -/
  size : Nat
  /-- `m_task_queue`. -/
  taskQueue : Fin n → List Nat
  /-- The handles that a primitive or an I/O request holds. -/
  waiting : List Nat
  /-- The `exec_task` calls in progress on a worker, the innermost first. -/
  calls : Fin n → List (Call n)
  /-- `m_max_recursive_depth`. -/
  recursiveDepth : Fin n → Nat
  /-- How often `clean` has destroyed a frame. -/
  destroys : Nat → Nat
  /-- The handles that `exec_task` inspected after they were destroyed. -/
  stale : List Nat

variable {n : Nat}

/-- `initial_suspend` and `get_return_object`: a new frame is suspended
before its body.  `detach` marks the promise. -/
def State.create (s : State n) (body : Body) (detached : Bool) : State n :=
  { s with
    frames := Function.update s.frames s.size
      { status := .suspended, body := body, continuation := none
        state := if detached then .detach else .normal }
    size := s.size + 1 }

def State.setStatus (s : State n) (f : Nat) (status : Status) : State n :=
  { s with frames := Function.update s.frames f { s.frames f with status := status } }

/-- The calls in progress on worker `w` become `calls`. -/
def State.setCalls (s : State n) (w : Fin n) (calls : List (Call n)) : State n :=
  { s with calls := Function.update s.calls w calls }

/-- `handle.done()`.  A frame is destroyed at its final suspend point only. -/
def Frame.isDone (f : Frame) : Bool :=
  decide (f.status = .done) || decide (f.status = .destroyed)

/-! ## The engine -/

/-- The first half of `exec_task` on worker `w`: `handle.resume()` starts. -/
def execTask (s : State n) (w : Fin n) (handle : Nat) (inlineOf : Option (Fin n)) : State n :=
  (s.setStatus handle .running).setCalls w
    ({ handle := handle, point := .frame handle, inlineOf := inlineOf } :: s.calls w)

/-- `engine::submit_task` of the engine of `target`.  `caller` is the worker
that calls it; a thread for which `is_in_working_state()` is false is none. -/
def submitTask (cfg : Config) (s : State n) (target : Fin n) (handle : Nat)
    (caller : Option (Fin n)) : State n :=
  if (s.taskQueue target).length < cfg.queCap then
    { s with
      taskQueue := Function.update s.taskQueue target (s.taskQueue target ++ [handle]) }
  else
    match caller with
    | some w =>
      if cfg.maxRecursiveDepth ≤ s.recursiveDepth target then
        s -- "the recursive depth exceed limit, so the task will be discard"
      else
        execTask
          { s with
            recursiveDepth := Function.update s.recursiveDepth target
              (s.recursiveDepth target + 1) }
          w handle (some target)
    | none => s -- "push task out of capacity before work thread run!"

/-- What the running frame `f` of the innermost call of `w` does next. -/
def runFrame (s : State n) (w : Fin n) (call : Call n) (rest : List (Call n)) (f : Nat) :
    State n :=
  match (s.frames f).body with
  | .suspend k =>
    { s with
      frames := Function.update s.frames f
        { s.frames f with status := .suspended, body := k }
      waiting := f :: s.waiting }.setCalls w ({ call with point := .awaitSuspend } :: rest)
  | .await child k =>
    { s with
      frames := Function.update
        (Function.update s.frames f { s.frames f with status := .suspended, body := k }) s.size
        { status := .running, body := child, continuation := some f, state := .normal }
      size := s.size + 1 }.setCalls w ({ call with point := .frame s.size } :: rest)
  | .ret =>
    match (s.frames f).continuation with
    | none => (s.setStatus f .done).setCalls w ({ call with point := .returned } :: rest)
    | some parent =>
      -- The parent reads the result and runs past its `co_await`, which
      -- destroys the temporary that owns `f`.
      ((s.setStatus f .destroyed).setStatus parent .running).setCalls w
        ({ call with point := .frame parent } :: rest)

/-- The second half of `exec_task`, after `handle.resume()` has returned. -/
def checkHandle (s : State n) (w : Fin n) (call : Call n) (rest : List (Call n)) : State n :=
  let frame := s.frames call.handle
  let s := { s with
    calls := Function.update s.calls w rest
    recursiveDepth :=
      match call.inlineOf with
      | some target => Function.update s.recursiveDepth target (s.recursiveDepth target - 1)
      | none => s.recursiveDepth
    stale := if frame.status = .destroyed then call.handle :: s.stale else s.stale }
  if frame.isDone = true ∧ frame.state = .detach then
    { s.setStatus call.handle .destroyed with
      destroys := Function.update s.destroys call.handle (s.destroys call.handle + 1) }
  else s

inductive Label (n : Nat)
  /-- A new task is submitted to the engine of `target`, by `submit(task&&)`
  when it is detached and by `submit(task&)` when it is not. -/
  | spawn (target : Fin n) (body : Body) (detached : Bool) (caller : Option (Fin n))
  /-- Whoever holds the handle of a suspended frame submits it. -/
  | wake (target : Fin n) (handle : Nat) (caller : Option (Fin n))
  /-- `exec_one_task` on one of the queued handles; the queue makes no
  promise about the order across producers. -/
  | execOne (w : Fin n) (handle : Nat)
  /-- The running frame takes its next step. -/
  | run (w : Fin n)
  /-- The `await_suspend` that the innermost call is in returns, and
  `handle.resume()` with it. -/
  | leave (w : Fin n)
  /-- `handle.done()` and `clean(handle)` of the innermost call. -/
  | check (w : Fin n)

/-- The caller runs code that may submit tasks: on a worker a frame, the rest
of an `await_suspend`, or a completion callback between two tasks. -/
def State.canSubmit (s : State n) : Option (Fin n) → Bool
  | none => true
  | some w =>
    match s.calls w with
    | [] => true
    | call :: _ => call.point ≠ .returned

def step (cfg : Config) (s : State n) : Label n → Option (State n)
  | .spawn target body detached caller =>
    if s.canSubmit caller = true then
      some (submitTask cfg (s.create body detached) target s.size caller)
    else none
  | .wake target handle caller =>
    if handle ∈ s.waiting ∧ s.canSubmit caller = true then
      some (submitTask cfg { s with waiting := s.waiting.erase handle } target handle caller)
    else none
  | .execOne w handle =>
    if handle ∈ s.taskQueue w ∧ s.calls w = [] then
      some (execTask { s with
        taskQueue := Function.update s.taskQueue w ((s.taskQueue w).erase handle) } w handle none)
    else none
  | .run w =>
    match s.calls w with
    | ⟨handle, .frame f, inlineOf⟩ :: rest =>
      some (runFrame s w ⟨handle, .frame f, inlineOf⟩ rest f)
    | _ => none
  | .leave w =>
    match s.calls w with
    | ⟨handle, .awaitSuspend, inlineOf⟩ :: rest =>
      some (s.setCalls w (⟨handle, .returned, inlineOf⟩ :: rest))
    | _ => none
  | .check w =>
    match s.calls w with
    | ⟨handle, .returned, inlineOf⟩ :: rest =>
      some (checkHandle s w ⟨handle, .returned, inlineOf⟩ rest)
    | _ => none

/-- The engines after `init()`, before the first task. -/
structure Init (s : State n) : Prop where
  size : s.size = 0
  taskQueue : ∀ w, s.taskQueue w = []
  waiting : s.waiting = []
  calls : ∀ w, s.calls w = []
  destroys : ∀ f, s.destroys f = 0
  stale : s.stale = []

variable (n) in
/-- The machine of `n` workers. -/
def machine (cfg : Config) : Machine (State n) (Label n) where
  init := Init
  step := step cfg

end SheepCoro.Engine
