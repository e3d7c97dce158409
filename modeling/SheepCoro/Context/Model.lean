import SheepCoro.Lib.Machine
import Mathlib.Data.Nat.Bitwise

/-!
# A worker and its eventfd

One context: the run loop of `src/context.cpp` and `poll_submit` of
`src/engine.cpp`, down to the counter of the eventfd that the worker sleeps
on.  `SheepCoro.Scheduler` has all the contexts and no eventfd; this machine
has one context, and everybody else is its environment.

Three kinds of signals end up in one counter.  Whoever submits a task pushes
the handle and then adds `task_flag`; whoever stops the context sets the stop
state and then adds `task_flag`; the kernel posts a completion and then adds
one.  Each of these is two steps, so the machine counts the writes that are
still to come (`pendTask`, `pendStop`, `pendCqe`).  A single read takes the
whole counter.  `wakes` and `signals` are what was added since the last read.

A write to an eventfd waits as long as the sum would not fit; the kernel's own
signal does not wait, it stops at the largest value.

A context that a scheduler manages gets tasks and stop requests from other
threads, and its stop callback may go on to `stop_impl`.  A standalone context
has the tasks that were submitted before `start()`, and the default stop
callback.
-/

namespace SheepCoro.Context

open Lib

structure Config where
  /-- `config::kQueCap`. -/
  queCap : Nat
  /-- `config::kMaxRecursiveDepth`. -/
  maxRecursiveDepth : Nat
  /-- The entries of the submission queue. -/
  sqEntries : Nat
  /-- `m_stop_cb` was set by a scheduler. -/
  scheduled : Bool

def taskFlag : Nat := 2 ^ 44

def cqeMask : Nat := 0x0000000000FFFFFF

/-- The largest value that a write may leave in an eventfd. -/
def eventfdMax : Nat := 2 ^ 64 - 2

/-- `wake_by_cqe`. -/
def wakeByCqe (val : Nat) : Bool :=
  decide (val &&& cqeMask > 0)

/-- Where the worker is in `context::run`. -/
inductive Pc
  /-- The thread was not started yet. -/
  | notStarted
  /-- About to test `stop_requested()`. -/
  | loop
  /-- About to call `num_task_schedule()`. -/
  | sample
  /-- In `process_work`, with `left` tasks to execute. -/
  | work (left : Nat)
  /-- About to call `empty_wait_task()`. -/
  | emptyWaitTask
  /-- About to call `m_engine.ready()`. -/
  | ready
  /-- In `m_stop_cb`. -/
  | stopCb
  /-- In `notify_stop` on the own context, about to call `wake_up`. -/
  | stopCbWake
  | doIoSubmit
  | waitEventfd
  /-- About to call `peek_batch_cqe`. -/
  | peek
  /-- With `left` out of `num` entries to handle. -/
  | handle (left num : Nat)
  | exited
deriving DecidableEq

/-- An `exec_task` call in progress. -/
structure Exec where
  handle : Nat
  /-- `submit_task` made the call, because the queue was full. -/
  inlined : Bool
deriving DecidableEq

structure State where
  /-- The counter of the eventfd. -/
  counter : Nat
  /-- The completions that were signalled since the last read. -/
  signals : Nat
  /-- The calls of `wake_up` since the last read. -/
  wakes : Nat
  taskQueue : List Nat
  /-- `m_num_wait_task`. -/
  numWaitTask : Nat
  /-- `m_num_io_wait_submit`. -/
  numIoWaitSubmit : Nat
  /-- `m_num_io_running`. -/
  numIoRunning : Nat
  /-- `m_max_recursive_depth`. -/
  recursiveDepth : Nat
  /-- The entries of the submission queue that the kernel has not taken. -/
  sq : Nat
  /-- The operations that the kernel works on. -/
  inflight : Nat
  /-- The entries of the completion queue. -/
  cq : Nat
  stopRequested : Bool
  pendTask : Nat
  pendStop : Nat
  pendCqe : Nat
  pc : Pc
  /-- The `exec_task` calls of the worker, the innermost first. -/
  calls : List Exec
  /-- The worker is in `submit_task`, about to call `wake_up`. -/
  submitting : Bool

def State.goto (s : State) (pc : Pc) : State :=
  { s with pc := pc }

/-- `empty_io`. -/
def State.emptyIo (s : State) : Prop :=
  s.numIoWaitSubmit = 0 ∧ s.numIoRunning = 0

instance (s : State) : Decidable s.emptyIo :=
  inferInstanceAs (Decidable (_ ∧ _))

/-- `wake_up`, once the write goes through. -/
def State.wakeUp (s : State) : Option State :=
  if s.counter + taskFlag ≤ eventfdMax then
    some { s with counter := s.counter + taskFlag, wakes := s.wakes + 1 }
  else none

/-- `submit_task` on the worker's own thread, up to the call of `wake_up`. -/
def State.submitTask (cfg : Config) (s : State) (h : Nat) : State :=
  if s.taskQueue.length < cfg.queCap then
    { s with taskQueue := s.taskQueue ++ [h], submitting := true }
  else if cfg.maxRecursiveDepth ≤ s.recursiveDepth then
    s -- "the recursive depth exceed limit, so the task will be discard"
  else
    { s with recursiveDepth := s.recursiveDepth + 1, calls := ⟨h, true⟩ :: s.calls }

/-- What a coroutine can do while the worker executes it. -/
inductive Action
  /-- `submit_task` on the own engine. -/
  | submit (h : Nat)
  /-- An I/O awaiter gets an entry, prepares it, and calls `add_io_submit`. -/
  | prepareIo
  /-- An I/O awaiter finds the submission queue full and submits. -/
  | earlySubmit (num : Nat)
  | registerWait
  | unregisterWait

def act (cfg : Config) (s : State) : Action → Option State
  | .submit h => some (s.submitTask cfg h)
  | .prepareIo =>
    if s.sq < cfg.sqEntries then
      some { s with sq := s.sq + 1, numIoWaitSubmit := s.numIoWaitSubmit + 1 }
    else none
  | .earlySubmit num =>
    if s.sq = cfg.sqEntries ∧ num ≤ s.sq then
      some { s with sq := s.sq - num, inflight := s.inflight + num }
    else none
  | .registerWait => some { s with numWaitTask := s.numWaitTask + 1 }
  | .unregisterWait =>
    -- An awaiter takes back what it has registered.
    if 0 < s.numWaitTask then some { s with numWaitTask := s.numWaitTask - 1 } else none

/-- The next step of `context::run` outside of the tasks.  `num` is how many
entries the kernel takes, or how many a peek returns. -/
def runStep (cfg : Config) (s : State) (num : Nat) : Pc → Option State
  | .notStarted => none
  | .loop => some (s.goto (if s.stopRequested then .exited else .sample))
  | .sample => some (s.goto (.work s.taskQueue.length))
  | .work 0 => some (s.goto .emptyWaitTask)
  | .work (left + 1) =>
    match s.taskQueue with
    | h :: rest => some { s with taskQueue := rest, calls := [⟨h, false⟩], pc := .work left }
    | [] => none -- pop() waits
  | .emptyWaitTask =>
    some (s.goto (if s.numWaitTask = 0 ∧ s.emptyIo then .ready else .doIoSubmit))
  | .ready => some (s.goto (if s.taskQueue = [] then .stopCb else .loop))
  | .stopCb =>
    if cfg.scheduled then some (s.goto .doIoSubmit)
    else some { s with stopRequested := true, pc := .doIoSubmit }
  | .stopCbWake => s.wakeUp.map (·.goto .stopCb)
  | .doIoSubmit =>
    if 0 < s.numIoWaitSubmit then
      if num ≤ s.sq then
        some { s with
          sq := s.sq - num
          inflight := s.inflight + num
          numIoRunning := s.numIoRunning + s.numIoWaitSubmit
          numIoWaitSubmit := 0
          pc := .waitEventfd }
      else none
    else some (s.goto .waitEventfd)
  | .waitEventfd =>
    if 0 < s.counter then
      some { s with
        counter := 0
        signals := 0
        wakes := 0
        pc := if wakeByCqe s.counter then .peek else .loop }
    else none
  | .peek =>
    if num ≤ s.cq ∧ num ≤ s.numIoRunning then
      some (s.goto (if num = 0 then .loop else .handle num num))
    else none
  | .handle 0 num =>
    some { s with cq := s.cq - num, numIoRunning := s.numIoRunning - num, pc := .loop }
  | .handle (_ + 1) _ => none
  | .exited => none

inductive Label
  | start
  /-- The worker moves on in `context::run`. -/
  | run (num : Nat)
  /-- In the stop callback `stop_impl` comes to the own context. -/
  | stopImpl
  /-- `handle_cqe_entry`: the callback submits `h`. -/
  | callback (h : Nat)
  /-- The coroutine that the worker executes acts. -/
  | act (a : Action)
  /-- The worker calls `wake_up` in `submit_task`. -/
  | wakeUp
  /-- The innermost `exec_task` call returns. -/
  | leave
  /-- Another thread pushes a handle. -/
  | push (h : Nat)
  /-- Another thread that has pushed a handle calls `wake_up`. -/
  | write
  /-- Another thread calls `request_stop` in `notify_stop`. -/
  | requestStop
  /-- Another thread calls `wake_up` in `notify_stop`. -/
  | writeStop
  /-- Another thread that resumed a coroutine of this context unregisters its
  wait. -/
  | unregisterWait
  /-- The kernel posts a completion. -/
  | complete
  /-- The kernel signals a completion. -/
  | signal

/-- The worker runs code of its own loop, not of a task. -/
def State.inLoop (s : State) : Prop :=
  s.calls = [] ∧ s.submitting = false

instance (s : State) : Decidable s.inLoop :=
  inferInstanceAs (Decidable (_ ∧ _))

def step (cfg : Config) (s : State) : Label → Option State
  | .start =>
    if s.pc = .notStarted ∧ (cfg.scheduled = true ∨ s.pendTask = 0) then some (s.goto .loop)
    else none
  | .run num => if s.inLoop then runStep cfg s num s.pc else none
  | .stopImpl =>
    if s.pc = .stopCb ∧ cfg.scheduled = true then
      some { s with stopRequested := true, pc := .stopCbWake }
    else none
  | .callback h =>
    match s.pc with
    | .handle (left + 1) num =>
      if s.inLoop then some ((s.goto (.handle left num)).submitTask cfg h) else none
    | _ => none
  | .act a => if s.calls ≠ [] ∧ s.submitting = false then act cfg s a else none
  | .wakeUp => if s.submitting then { s with submitting := false }.wakeUp else none
  | .leave =>
    if s.submitting then none
    else
      match s.calls with
      | x :: rest => some { s with
          calls := rest
          recursiveDepth := if x.inlined then s.recursiveDepth - 1 else s.recursiveDepth }
      | [] => none
  | .push h =>
    if (cfg.scheduled = true ∨ s.pc = .notStarted) ∧ s.taskQueue.length < cfg.queCap then
      some { s with taskQueue := s.taskQueue ++ [h], pendTask := s.pendTask + 1 }
    else none
  | .write =>
    if 0 < s.pendTask then { s with pendTask := s.pendTask - 1 }.wakeUp else none
  | .requestStop =>
    if cfg.scheduled = true ∧ s.pc ≠ .notStarted then
      some { s with stopRequested := true, pendStop := s.pendStop + 1 }
    else none
  | .writeStop =>
    if 0 < s.pendStop then { s with pendStop := s.pendStop - 1 }.wakeUp else none
  | .unregisterWait =>
    if cfg.scheduled = true ∧ 0 < s.numWaitTask then
      some { s with numWaitTask := s.numWaitTask - 1 }
    else none
  | .complete =>
    if 0 < s.inflight then
      some { s with
        inflight := s.inflight - 1, cq := s.cq + 1, pendCqe := s.pendCqe + 1 }
    else none
  | .signal =>
    if 0 < s.pendCqe then
      some { s with
        pendCqe := s.pendCqe - 1
        counter := min (s.counter + 1) (2 ^ 64 - 1)
        signals := s.signals + 1 }
    else none

/-- What a step does, one case for each label. -/
inductive StepCase (cfg : Config) (s : State) : Label → State → Prop
  | start (hpc : s.pc = .notStarted) (hnone : cfg.scheduled = true ∨ s.pendTask = 0) :
    StepCase cfg s .start (s.goto .loop)
  | run {num : Nat} {s' : State} (hloop : s.inLoop)
      (hrun : runStep cfg s num s.pc = some s') : StepCase cfg s (.run num) s'
  | stopImpl (hpc : s.pc = .stopCb) (hsched : cfg.scheduled = true) :
    StepCase cfg s .stopImpl { s with stopRequested := true, pc := .stopCbWake }
  | callback {h left num : Nat} (hpc : s.pc = .handle (left + 1) num) (hloop : s.inLoop) :
    StepCase cfg s (.callback h) ((s.goto (.handle left num)).submitTask cfg h)
  | act {a : Action} {s' : State} (hcalls : s.calls ≠ []) (hsub : s.submitting = false)
      (hact : Context.act cfg s a = some s') : StepCase cfg s (.act a) s'
  | wakeUp {s' : State} (hsub : s.submitting = true)
      (hwrite : { s with submitting := false }.wakeUp = some s') : StepCase cfg s .wakeUp s'
  | leave {x : Exec} {rest : List Exec} (hsub : s.submitting = false)
      (hcalls : s.calls = x :: rest) :
    StepCase cfg s .leave { s with
      calls := rest
      recursiveDepth := if x.inlined then s.recursiveDepth - 1 else s.recursiveDepth }
  | push {h : Nat} (hopen : cfg.scheduled = true ∨ s.pc = .notStarted)
      (hroom : s.taskQueue.length < cfg.queCap) :
    StepCase cfg s (.push h)
      { s with taskQueue := s.taskQueue ++ [h], pendTask := s.pendTask + 1 }
  | write {s' : State} (hpos : 0 < s.pendTask)
      (hwrite : { s with pendTask := s.pendTask - 1 }.wakeUp = some s') : StepCase cfg s .write s'
  | requestStop (hsched : cfg.scheduled = true) (hpc : s.pc ≠ .notStarted) :
    StepCase cfg s .requestStop { s with stopRequested := true, pendStop := s.pendStop + 1 }
  | writeStop {s' : State} (hpos : 0 < s.pendStop)
      (hwrite : { s with pendStop := s.pendStop - 1 }.wakeUp = some s') :
    StepCase cfg s .writeStop s'
  | unregisterWait (hsched : cfg.scheduled = true) (hpos : 0 < s.numWaitTask) :
    StepCase cfg s .unregisterWait { s with numWaitTask := s.numWaitTask - 1 }
  | complete (hpos : 0 < s.inflight) :
    StepCase cfg s .complete { s with
      inflight := s.inflight - 1, cq := s.cq + 1, pendCqe := s.pendCqe + 1 }
  | signal (hpos : 0 < s.pendCqe) :
    StepCase cfg s .signal { s with
      pendCqe := s.pendCqe - 1
      counter := min (s.counter + 1) (2 ^ 64 - 1)
      signals := s.signals + 1 }

theorem step_cases {cfg : Config} {s s' : State} {a : Label} (hs : step cfg s a = some s') :
    StepCase cfg s a s' := by
  cases a with
  | start =>
    obtain ⟨⟨hpc, hnone⟩, ⟨⟩⟩ := Option.ite_none_right_eq_some.mp hs
    exact .start hpc hnone
  | run num =>
    obtain ⟨hloop, hs⟩ := Option.ite_none_right_eq_some.mp hs
    exact .run hloop hs
  | stopImpl =>
    obtain ⟨⟨hpc, hsched⟩, ⟨⟩⟩ := Option.ite_none_right_eq_some.mp hs
    exact .stopImpl hpc hsched
  | callback h =>
    simp only [step] at hs
    split at hs
    · next left num hpc =>
      obtain ⟨hloop, ⟨⟩⟩ := Option.ite_none_right_eq_some.mp hs
      exact .callback hpc hloop
    · cases hs
  | act a =>
    obtain ⟨⟨hcalls, hsub⟩, hs⟩ := Option.ite_none_right_eq_some.mp hs
    exact .act hcalls hsub hs
  | wakeUp =>
    obtain ⟨hsub, hs⟩ := Option.ite_none_right_eq_some.mp hs
    exact .wakeUp hsub hs
  | leave =>
    simp only [step] at hs
    split_ifs at hs with hsub
    split at hs
    · next x rest hcalls =>
      cases hs
      exact .leave (by simpa using hsub) hcalls
    · cases hs
  | push h =>
    obtain ⟨⟨hopen, hroom⟩, ⟨⟩⟩ := Option.ite_none_right_eq_some.mp hs
    exact .push hopen hroom
  | write =>
    obtain ⟨hpos, hs⟩ := Option.ite_none_right_eq_some.mp hs
    exact .write hpos hs
  | requestStop =>
    obtain ⟨⟨hsched, hpc⟩, ⟨⟩⟩ := Option.ite_none_right_eq_some.mp hs
    exact .requestStop hsched hpc
  | writeStop =>
    obtain ⟨hpos, hs⟩ := Option.ite_none_right_eq_some.mp hs
    exact .writeStop hpos hs
  | unregisterWait =>
    obtain ⟨⟨hsched, hpos⟩, ⟨⟩⟩ := Option.ite_none_right_eq_some.mp hs
    exact .unregisterWait hsched hpos
  | complete =>
    obtain ⟨hpos, ⟨⟩⟩ := Option.ite_none_right_eq_some.mp hs
    exact .complete hpos
  | signal =>
    obtain ⟨hpos, ⟨⟩⟩ := Option.ite_none_right_eq_some.mp hs
    exact .signal hpos

/-- A new context. -/
def newState : State where
  counter := 0
  signals := 0
  wakes := 0
  taskQueue := []
  numWaitTask := 0
  numIoWaitSubmit := 0
  numIoRunning := 0
  recursiveDepth := 0
  sq := 0
  inflight := 0
  cq := 0
  stopRequested := false
  pendTask := 0
  pendStop := 0
  pendCqe := 0
  pc := .notStarted
  calls := []
  submitting := false

def machine (cfg : Config) : Machine State Label where
  init s := s = newState
  step := step cfg

end SheepCoro.Context
