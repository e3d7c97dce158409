import SheepCoro.Lib.Machine
import Mathlib.Data.Fin.Basic
import Mathlib.Data.Nat.Bitwise

/-!
# The scheduler and its workers

`src/scheduler.cpp` with the run loop of `src/context.cpp` as a machine for
any number `n` of contexts.  Context `i` and the worker thread that runs it
have the same name.

Every context has a flag in `m_ctx_stop_flag`, and `m_stop_token` counts the
flags that are raised.  `submit_task_impl` picks a context, raises its flag,
adds to the token what the flag was short of, and pushes the task: four
steps.  A worker that finds no registered wait, no I/O and no queued task
calls the stop callback, which lowers the flag and then takes the old value
of the flag from the token: two steps.  When the token was all used up by
that the callback stops every context.

Coroutines are numbers.  A coroutine that awaits a primitive first registers
with the context it runs in, is then parked, and unregisters after it was
resumed, so that `m_num_wait_task` counts it all the way from the `co_await`
to the `await_resume`.  A parked coroutine may be woken while the worker
that parked it is still inside of `await_suspend`, so the `exec_task` call
stays on the stack until the worker leaves it.

The eventfd is not part of this machine: a worker may return from its poll
at any time and with any number of the completions it waits for.
-/

namespace SheepCoro.Scheduler

open Lib

/-- Where a coroutine is. -/
inductive Place (n : Nat)
  /-- Not submitted yet. -/
  | fresh
  /-- Queued, or on its way to a queue. -/
  | ready
  | running
  /-- Suspended on a primitive. -/
  | parked
  /-- Waits for a request that context `i` has to submit or to reap. -/
  | io (i : Fin n)
  /-- Finished, or discarded by `submit_task`. -/
  | ended
deriving DecidableEq

/-- One `exec_task` call in progress. -/
structure Exec (n : Nat) where
  coro : Nat
  /-- The engine whose `submit_task` made the call inline. -/
  inlineOf : Option (Fin n)
  /-- The coroutine is suspended or done; only code of the awaiter is left
  to run. -/
  leaving : Bool
deriving DecidableEq

/-- Where a worker is in `submit_task_impl`. -/
inductive SubmitPc (n : Nat)
  | dispatch
  | fetchOr (target : Fin n)
  /-- `delta` is what the token is short of. -/
  | fetchAdd (target : Fin n) (delta : Nat)
  | push (target : Fin n)
deriving DecidableEq

structure Submission (n : Nat) where
  coro : Nat
  pc : SubmitPc n
deriving DecidableEq

/-- Where a worker is in `context::run`. -/
inductive RunPc
  /-- About to test `stop_requested()`. -/
  | loop
  /-- In `process_work` with `left` tasks to execute. -/
  | work (left : Nat)
  /-- About to call `empty_wait_task()`. -/
  | emptyWaitTask
  /-- About to call `m_engine.ready()`. -/
  | ready
  /-- In the stop callback, before `fetch_and`. -/
  | fetchAnd
  /-- In the stop callback, before `fetch_sub(cnt)`. -/
  | fetchSub (cnt : Nat)
  /-- In `stop_impl`, about to notify context `i`. -/
  | stopImpl (i : Nat)
  /-- In `poll_submit`, before the completions are peeked. -/
  | poll
  /-- In `poll_submit`, with `left` out of `num` completions to handle. -/
  | callbacks (left num : Nat)
  | exited
deriving DecidableEq

/-- `config::kQueCap` and `config::kMaxRecursiveDepth`. -/
structure Config where
  queCap : Nat
  maxRecursiveDepth : Nat

structure State (n : Nat) where
  /-- `m_ctx_stop_flag`. -/
  stopFlag : Fin n → Nat
  /-- `m_stop_token`. -/
  stopToken : Int
  /-- `m_cur` of the round robin dispatcher. -/
  cur : Nat
  taskQueue : Fin n → List Nat
  /-- `m_max_recursive_depth`. -/
  recursiveDepth : Fin n → Nat
  /-- `m_num_wait_task`. -/
  numWaitTask : Fin n → Nat
  /-- `m_num_io_wait_submit`. -/
  numIoWaitSubmit : Fin n → Nat
  /-- `m_num_io_running`. -/
  numIoRunning : Fin n → Nat
  /-- `stop_requested()`. -/
  stopRequested : Fin n → Bool
  pc : Fin n → RunPc
  /-- The `exec_task` calls on a worker, the innermost first. -/
  stack : Fin n → List (Exec n)
  /-- The `submit_task_impl` call that the innermost coroutine is in. -/
  submission : Fin n → Option (Submission n)
  place : Nat → Place n
  /-- The context that a coroutine has registered its wait with. -/
  registered : Nat → Option (Fin n)

variable {n : Nat}

def State.goto (s : State n) (w : Fin n) (pc : RunPc) : State n :=
  { s with pc := Function.update s.pc w pc }

def State.move (s : State n) (c : Nat) (p : Place n) : State n :=
  { s with place := Function.update s.place c p }

/-- `exec_task(c)` starts on worker `w`. -/
def State.exec (s : State n) (w : Fin n) (c : Nat) (inlineOf : Option (Fin n)) : State n :=
  { s.move c .running with
    stack := Function.update s.stack w (⟨c, inlineOf, false⟩ :: s.stack w) }

/-- `engine::submit_task` of context `e`, called on worker `w`. -/
def State.submitTask (cfg : Config) (s : State n) (w e : Fin n) (c : Nat) : State n :=
  if (s.taskQueue e).length < cfg.queCap then
    { s.move c .ready with taskQueue := Function.update s.taskQueue e (s.taskQueue e ++ [c]) }
  else if cfg.maxRecursiveDepth ≤ s.recursiveDepth e then
    s.move c .ended -- "the recursive depth exceed limit, so the task will be discard"
  else
    { s with
      recursiveDepth := Function.update s.recursiveDepth e (s.recursiveDepth e + 1) }.exec
        w c (some e)

/-- The innermost call of a worker turns to the code behind the suspension
of its coroutine. -/
def State.suspend (s : State n) (w : Fin n) (x : Exec n) (rest : List (Exec n))
    (p : Place n) : State n :=
  { s.move x.coro p with stack := Function.update s.stack w ({ x with leaving := true } :: rest) }

/-! ## What a coroutine can do -/

inductive Action
  /-- `register_wait` of an awaiter. -/
  | register
  /-- `unregister_wait` of an awaiter. -/
  | unregister
  /-- The awaiter is on the list of its primitive. -/
  | park
  /-- The coroutine awaits an I/O request. -/
  | startIo
  /-- The coroutine reaches its final suspend point. -/
  | finish
  /-- `submit_task_impl` starts on a new coroutine. -/
  | submit (c : Nat)
deriving DecidableEq

/-- The running coroutine of the innermost call `x` acts. -/
def act (s : State n) (w : Fin n) (x : Exec n) (rest : List (Exec n)) :
    Action → Option (State n)
  | .register =>
    if s.registered x.coro = none then
      some { s with
        registered := Function.update s.registered x.coro (some w)
        numWaitTask := Function.update s.numWaitTask w (s.numWaitTask w + 1) }
    else none
  | .unregister =>
    match s.registered x.coro with
    | some h => some { s with
        registered := Function.update s.registered x.coro none
        numWaitTask := Function.update s.numWaitTask h (s.numWaitTask h - 1) }
    | none => none
  | .park => if s.registered x.coro ≠ none then some (s.suspend w x rest .parked) else none
  | .startIo =>
    if s.registered x.coro = none then
      some { s.suspend w x rest (.io w) with
        numIoWaitSubmit := Function.update s.numIoWaitSubmit w (s.numIoWaitSubmit w + 1) }
    else none
  | .finish => if s.registered x.coro = none then some (s.suspend w x rest .ended) else none
  | .submit c =>
    if s.place c = .fresh then
      some { s.move c .ready with
        submission := Function.update s.submission w (some ⟨c, .dispatch⟩) }
    else none

/-- The next step of `submit_task_impl`. -/
def submitStep [NeZero n] (cfg : Config) (s : State n) (w : Fin n) (c : Nat) :
    SubmitPc n → State n
  | .dispatch =>
    { s with
      cur := (s.cur + 1) % 2 ^ 64
      submission := Function.update s.submission w (some ⟨c, .fetchOr (Fin.ofNat n s.cur)⟩) }
  | .fetchOr t =>
    { s with
      stopFlag := Function.update s.stopFlag t (s.stopFlag t ||| 1)
      submission := Function.update s.submission w
        (some ⟨c, .fetchAdd t (1 - s.stopFlag t)⟩) }
  | .fetchAdd t delta =>
    { s with
      stopToken := s.stopToken + delta
      submission := Function.update s.submission w (some ⟨c, .push t⟩) }
  | .push t =>
    { s with submission := Function.update s.submission w none }.submitTask cfg w t c

/-! ## The worker -/

/-- The next step of `context::run` outside of a task.  `num` is the number
of completions that a poll finds. -/
def runStep (s : State n) (w : Fin n) (num : Nat) : RunPc → Option (State n)
  | .loop =>
    some (s.goto w (if s.stopRequested w then .exited else .work (s.taskQueue w).length))
  | .work left => if left = 0 then some (s.goto w .emptyWaitTask) else none
  | .emptyWaitTask =>
    some (s.goto w (if s.numWaitTask w = 0 ∧ s.numIoWaitSubmit w = 0 ∧ s.numIoRunning w = 0
      then .ready else .poll))
  | .ready => some (s.goto w (if s.taskQueue w = [] then .fetchAnd else .loop))
  | .fetchAnd =>
    some ({ s with stopFlag := Function.update s.stopFlag w (s.stopFlag w &&& 0) }.goto w
      (.fetchSub (s.stopFlag w)))
  | .fetchSub cnt =>
    some ({ s with stopToken := s.stopToken - cnt }.goto w
      (if s.stopToken = cnt then .stopImpl 0 else .poll))
  | .stopImpl i =>
    if hi : i < n then
      some ({ s with stopRequested := Function.update s.stopRequested ⟨i, hi⟩ true }.goto w
        (.stopImpl (i + 1)))
    else some (s.goto w .poll)
  | .poll =>
    if num ≤ s.numIoRunning w + s.numIoWaitSubmit w then
      some ({ s with
        numIoRunning := Function.update s.numIoRunning w
          (s.numIoRunning w + s.numIoWaitSubmit w)
        numIoWaitSubmit := Function.update s.numIoWaitSubmit w 0 }.goto w
          (.callbacks num num))
    else none
  | .callbacks left num =>
    if left = 0 then
      some ({ s with
        numIoRunning := Function.update s.numIoRunning w (s.numIoRunning w - num) }.goto w
          .loop)
    else none
  | .exited => none

/-- What a worker does in `context::run`, one case for each way to go on from
a position. -/
inductive RunStep (s : State n) (w : Fin n) (num : Nat) : State n → Prop
  | exit (hpc : s.pc w = .loop) (hstop : s.stopRequested w = true) :
    RunStep s w num (s.goto w .exited)
  | enter (hpc : s.pc w = .loop) (hstop : s.stopRequested w = false) :
    RunStep s w num (s.goto w (.work (s.taskQueue w).length))
  | worked (hpc : s.pc w = .work 0) : RunStep s w num (s.goto w .emptyWaitTask)
  | empty (hpc : s.pc w = .emptyWaitTask)
    (hempty : s.numWaitTask w = 0 ∧ s.numIoWaitSubmit w = 0 ∧ s.numIoRunning w = 0) :
    RunStep s w num (s.goto w .ready)
  | waits (hpc : s.pc w = .emptyWaitTask) : RunStep s w num (s.goto w .poll)
  | idle (hpc : s.pc w = .ready) (hqueue : s.taskQueue w = []) :
    RunStep s w num (s.goto w .fetchAnd)
  | back (hpc : s.pc w = .ready) (hqueue : s.taskQueue w ≠ []) : RunStep s w num (s.goto w .loop)
  | fetchAnd (hpc : s.pc w = .fetchAnd) :
    RunStep s w num ({ s with
      stopFlag := Function.update s.stopFlag w (s.stopFlag w &&& 0) }.goto w
        (.fetchSub (s.stopFlag w)))
  | last {cnt : Nat} (hpc : s.pc w = .fetchSub cnt) (htoken : s.stopToken = cnt) :
    RunStep s w num ({ s with stopToken := s.stopToken - cnt }.goto w (.stopImpl 0))
  | fetchSub {cnt : Nat} (hpc : s.pc w = .fetchSub cnt) (htoken : s.stopToken ≠ cnt) :
    RunStep s w num ({ s with stopToken := s.stopToken - cnt }.goto w .poll)
  | notify {i : Nat} (hpc : s.pc w = .stopImpl i) (hi : i < n) :
    RunStep s w num ({ s with
      stopRequested := Function.update s.stopRequested ⟨i, hi⟩ true }.goto w (.stopImpl (i + 1)))
  | notified {i : Nat} (hpc : s.pc w = .stopImpl i) (hi : ¬ i < n) :
    RunStep s w num (s.goto w .poll)
  | poll (hpc : s.pc w = .poll) (hnum : num ≤ s.numIoRunning w + s.numIoWaitSubmit w) :
    RunStep s w num ({ s with
      numIoRunning := Function.update s.numIoRunning w (s.numIoRunning w + s.numIoWaitSubmit w)
      numIoWaitSubmit := Function.update s.numIoWaitSubmit w 0 }.goto w (.callbacks num num))
  | reap {m : Nat} (hpc : s.pc w = .callbacks 0 m) :
    RunStep s w num ({ s with
      numIoRunning := Function.update s.numIoRunning w (s.numIoRunning w - m) }.goto w .loop)

theorem runStep_cases {s s' : State n} {w : Fin n} {num : Nat}
    (hs : runStep s w num (s.pc w) = some s') : RunStep s w num s' := by
  cases hpc : s.pc w with
  | loop =>
    simp only [runStep, hpc, Option.some.injEq] at hs
    subst hs
    split_ifs with hstop
    · exact .exit hpc hstop
    · exact .enter hpc (by simpa using hstop)
  | work left =>
    simp only [runStep, hpc, Option.ite_none_right_eq_some, Option.some.injEq] at hs
    obtain ⟨rfl, rfl⟩ := hs
    exact .worked hpc
  | emptyWaitTask =>
    simp only [runStep, hpc, Option.some.injEq] at hs
    subst hs
    split_ifs with hempty
    · exact .empty hpc hempty
    · exact .waits hpc
  | ready =>
    simp only [runStep, hpc, Option.some.injEq] at hs
    subst hs
    split_ifs with hqueue
    · exact .idle hpc hqueue
    · exact .back hpc hqueue
  | fetchAnd =>
    simp only [runStep, hpc, Option.some.injEq] at hs
    subst hs
    exact .fetchAnd hpc
  | fetchSub cnt =>
    simp only [runStep, hpc, Option.some.injEq] at hs
    subst hs
    split_ifs with htoken
    · exact .last hpc htoken
    · exact .fetchSub hpc htoken
  | stopImpl i =>
    simp only [runStep, hpc] at hs
    split_ifs at hs with hi
    · cases hs
      exact .notify hpc hi
    · cases hs
      exact .notified hpc hi
  | poll =>
    simp only [runStep, hpc, Option.ite_none_right_eq_some, Option.some.injEq] at hs
    obtain ⟨hnum, rfl⟩ := hs
    exact .poll hpc hnum
  | callbacks left m =>
    simp only [runStep, hpc, Option.ite_none_right_eq_some, Option.some.injEq] at hs
    obtain ⟨rfl, rfl⟩ := hs
    exact .reap hpc
  | exited =>
    simp only [runStep, hpc] at hs
    cases hs

inductive Label (n : Nat)
  /-- Worker `w` moves on in `context::run`. -/
  | run (w : Fin n) (num : Nat)
  /-- Worker `w` executes the queued coroutine `c`. -/
  | execOne (w : Fin n) (c : Nat)
  /-- Worker `w` handles the completion that `c` waits for. -/
  | callback (w : Fin n) (c : Nat)
  /-- The coroutine that worker `w` runs acts. -/
  | act (w : Fin n) (a : Action)
  /-- The code that worker `w` runs wakes `c`. -/
  | wake (w : Fin n) (c : Nat)
  /-- Worker `w` moves on in `submit_task_impl`. -/
  | submitStep (w : Fin n)
  /-- The innermost `exec_task` call of worker `w` returns. -/
  | leave (w : Fin n)

def step [NeZero n] (cfg : Config) (s : State n) : Label n → Option (State n)
  | .run w num => if s.stack w = [] then runStep s w num (s.pc w) else none
  | .execOne w c =>
    match s.pc w with
    | .work (left + 1) =>
      if s.stack w = [] ∧ c ∈ s.taskQueue w then
        some (({ s with
          taskQueue := Function.update s.taskQueue w ((s.taskQueue w).erase c) }.goto w
            (.work left)).exec w c none)
      else none
    | _ => none
  | .callback w c =>
    match s.pc w with
    | .callbacks (left + 1) num =>
      if s.stack w = [] ∧ s.place c = .io w then
        some ((s.goto w (.callbacks left num)).submitTask cfg w w c)
      else none
    | _ => none
  | .act w a =>
    match s.stack w with
    | x :: rest =>
      if x.leaving = false ∧ s.place x.coro = .running ∧ s.submission w = none then
        act s w x rest a
      else none
    | [] => none
  | .wake w c =>
    match s.registered c with
    | some h =>
      if s.place c = .parked ∧ s.stack w ≠ [] ∧ s.submission w = none then
        some (s.submitTask cfg w h c)
      else none
    | none => none
  | .submitStep w =>
    match s.submission w with
    | some ⟨c, pc⟩ => some (submitStep cfg s w c pc)
    | none => none
  | .leave w =>
    match s.stack w with
    | x :: rest =>
      if x.leaving = true ∧ s.submission w = none then
        some { s with
          stack := Function.update s.stack w rest
          recursiveDepth := match x.inlineOf with
            | some e => Function.update s.recursiveDepth e (s.recursiveDepth e - 1)
            | none => s.recursiveDepth }
      else none
    | [] => none

/-- What a step does, one case for each label. -/
inductive StepCase [NeZero n] (cfg : Config) (s : State n) : Label n → State n → Prop
  | run {w : Fin n} {num : Nat} {s' : State n} (hstack : s.stack w = [])
      (hrun : runStep s w num (s.pc w) = some s') : StepCase cfg s (.run w num) s'
  | execOne {w : Fin n} {c left : Nat} (hpc : s.pc w = .work (left + 1))
      (hstack : s.stack w = []) (hmem : c ∈ s.taskQueue w) :
      StepCase cfg s (.execOne w c) (({ s with
        taskQueue := Function.update s.taskQueue w ((s.taskQueue w).erase c) }.goto w
          (.work left)).exec w c none)
  | callback {w : Fin n} {c left num : Nat} (hpc : s.pc w = .callbacks (left + 1) num)
      (hstack : s.stack w = []) (hplace : s.place c = .io w) :
      StepCase cfg s (.callback w c) ((s.goto w (.callbacks left num)).submitTask cfg w w c)
  | act {w : Fin n} {a : Action} {x : Exec n} {rest : List (Exec n)} {s' : State n}
      (hstack : s.stack w = x :: rest) (hleaving : x.leaving = false)
      (hplace : s.place x.coro = .running) (hsub : s.submission w = none)
      (hact : Scheduler.act s w x rest a = some s') : StepCase cfg s (.act w a) s'
  | wake {w h : Fin n} {c : Nat} (hreg : s.registered c = some h) (hplace : s.place c = .parked)
      (hstack : s.stack w ≠ []) (hsub : s.submission w = none) :
      StepCase cfg s (.wake w c) (s.submitTask cfg w h c)
  | submitStep {w : Fin n} {c : Nat} {pc : SubmitPc n} (hx : s.submission w = some ⟨c, pc⟩) :
      StepCase cfg s (.submitStep w) (Scheduler.submitStep cfg s w c pc)
  | leave {w : Fin n} {x : Exec n} {rest : List (Exec n)} (hstack : s.stack w = x :: rest)
      (hleaving : x.leaving = true) (hsub : s.submission w = none) :
      StepCase cfg s (.leave w) { s with
        stack := Function.update s.stack w rest
        recursiveDepth := match x.inlineOf with
          | some e => Function.update s.recursiveDepth e (s.recursiveDepth e - 1)
          | none => s.recursiveDepth }

theorem step_cases [NeZero n] {cfg : Config} {s s' : State n} {a : Label n}
    (hs : step cfg s a = some s') : StepCase cfg s a s' := by
  cases a with
  | run w num =>
    obtain ⟨hstack, hs⟩ := Option.ite_none_right_eq_some.mp hs
    exact .run hstack hs
  | execOne w c =>
    simp only [step] at hs
    split at hs
    · next left hpc =>
      obtain ⟨⟨hstack, hmem⟩, ⟨⟩⟩ := Option.ite_none_right_eq_some.mp hs
      exact .execOne hpc hstack hmem
    · cases hs
  | callback w c =>
    simp only [step] at hs
    split at hs
    · next left num hpc =>
      obtain ⟨⟨hstack, hplace⟩, ⟨⟩⟩ := Option.ite_none_right_eq_some.mp hs
      exact .callback hpc hstack hplace
    · cases hs
  | act w a =>
    simp only [step] at hs
    split at hs
    · next x rest hstack =>
      obtain ⟨⟨hleaving, hplace, hsub⟩, hs⟩ := Option.ite_none_right_eq_some.mp hs
      exact .act hstack hleaving hplace hsub hs
    · cases hs
  | wake w c =>
    simp only [step] at hs
    split at hs
    · next h hreg =>
      obtain ⟨⟨hplace, hstack, hsub⟩, ⟨⟩⟩ := Option.ite_none_right_eq_some.mp hs
      exact .wake hreg hplace hstack hsub
    · cases hs
  | submitStep w =>
    simp only [step] at hs
    split at hs
    · next c pc hx =>
      cases hs
      exact .submitStep hx
    · cases hs
  | leave w =>
    simp only [step] at hs
    split at hs
    · next x rest hstack =>
      obtain ⟨⟨hleaving, hsub⟩, ⟨⟩⟩ := Option.ite_none_right_eq_some.mp hs
      exact .leave hstack hleaving hsub
    · cases hs

/-- After `init_impl` and the submissions that come before `loop()`: every
flag is raised, and the tasks are queued. -/
structure Init (s : State n) : Prop where
  stopFlag : ∀ i, s.stopFlag i = 1
  stopToken : s.stopToken = n
  numWaitTask : ∀ i, s.numWaitTask i = 0
  numIoWaitSubmit : ∀ i, s.numIoWaitSubmit i = 0
  numIoRunning : ∀ i, s.numIoRunning i = 0
  stopRequested : ∀ i, s.stopRequested i = false
  pc : ∀ i, s.pc i = .loop
  stack : ∀ i, s.stack i = []
  submission : ∀ i, s.submission i = none
  place : ∀ c, s.place c = .fresh ∨ s.place c = .ready
  registered : ∀ c, s.registered c = none

def machine (n : Nat) [NeZero n] (cfg : Config) : Machine (State n) (Label n) where
  init := Init
  step := step cfg

end SheepCoro.Scheduler
