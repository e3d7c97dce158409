import SheepCoro.Lib.History
import Mathlib.Data.Finset.Card

/-!
# Awaiters and the wait counter of a context

Every awaiter of `mutex`, `condition_variable`, `event`, `latch` and
`wait_group` counts itself in `m_num_wait_task` of the context that it was
created on, and each class does so at another point: the mutex and the wait
group in `await_suspend`, the event already in `await_ready`, the condition
variable only when its predicate is false, under `m_suspend_state`, and then
again (with a count of zero) from `resume()`, which runs on the thread of
whoever unlocks the mutex or notifies.

This machine has the awaiters of all classes (`ι`) and the counters of all
contexts (`χ`).  A step is a piece of an awaiter function between two
operations that others can see.  What an operation on a shared word or a
predicate returns is part of the label, so a run is any interleaving with any
outcomes.  `SheepCoro.Waits.Primitives` shows that the mutex, the condition
variables, the event and the wait group do nothing else to their awaiters.

`m_num_wait_task` is a `size_t`.  Awaiters are objects in memory, so there are
never `2 ^ 64` of them, and the counter can leave its range only by an
`unregister_wait` too many.  Here it would become negative.
-/

namespace SheepCoro.Waits

open Lib

/-- The class of an awaiter. -/
inductive Kind
  /-- `mutex_awaiter`, also as the base of `mutex_guard_awaiter`. -/
  | mutex
  /-- `cv_awaiter`, which may have a predicate. -/
  | cv (hasCond : Bool)
  /-- `event_base::awaiter_base`; a latch waits on its event. -/
  | event
  | waitGroup
deriving DecidableEq

/-- Where an awaiter is. -/
inductive Pc
  /-- The coroutine is not in a `co_await`. -/
  | idle
  /-- About to call `register_wait`. -/
  | registerWait
  /-- In `mutex_awaiter::register_lock`. -/
  | registerLock
  /-- In `event_base::awaiter_base::await_ready`, about to call `is_set`. -/
  | isSet
  /-- In `event_base::register_awaiter`. -/
  | registerAwaiter
  /-- In the loop of `wait_group::awaiter::await_suspend`. -/
  | loadCount
  /-- In `cv_awaiter::register_lock`, about to evaluate the predicate. -/
  | cond
  /-- In `cv_awaiter::resume`, about to evaluate the predicate. -/
  | condResume
  /-- About to call `register_cv`. -/
  | registerCv
  /-- On the list of a condition variable, an event or a wait group. -/
  | parked
  /-- On one of the lists of a mutex. -/
  | queued
  /-- `submit_task` was called with the coroutine. -/
  | requeued
  /-- About to call `await_resume`. -/
  | resuming
deriving DecidableEq

structure State (ι χ : Type) where
  pc : ι → Pc
  kind : ι → Kind
  /-- `m_ctx`. -/
  ctx : ι → χ
  /-- `m_suspend_state`; only a `cv_awaiter` has it. -/
  suspendState : ι → Bool
  /-- `m_num_wait_task` of a context. -/
  numWait : χ → Int

/-- The first step of a `co_await`. -/
def Kind.start : Kind → Pc
  | .mutex | .event | .waitGroup | .cv false => .registerWait
  | .cv true => .cond

/-- Where `register_wait` leads. -/
def Kind.registered : Kind → Pc
  | .mutex => .registerLock
  | .event => .isSet
  | .waitGroup => .loadCount
  | .cv _ => .registerCv

/-- The first step of `cv_awaiter::resume`. -/
def resumeCv : Bool → Pc
  | true => .condResume
  | false => .requeued

/-- The argument of `register_wait`. -/
def Kind.registerCnt (suspendState : Bool) : Kind → Nat
  | .cv _ => (!suspendState).toNat
  | _ => 1

/-- The argument of `unregister_wait`. -/
def Kind.unregisterCnt (suspendState : Bool) : Kind → Nat
  | .cv _ => suspendState.toNat
  | _ => 1

section Machine

variable {ι χ : Type} [DecidableEq ι] [DecidableEq χ]

def State.goto (s : State ι χ) (i : ι) (pc : Pc) : State ι χ :=
  { s with pc := Function.update s.pc i pc }

def State.registerWait (s : State ι χ) (c : χ) (registerCnt : Nat) : State ι χ :=
  { s with numWait := Function.update s.numWait c (s.numWait c + registerCnt) }

def State.unregisterWait (s : State ι χ) (c : χ) (registerCnt : Nat) : State ι χ :=
  { s with numWait := Function.update s.numWait c (s.numWait c - registerCnt) }

/-- `context::empty_wait_task`, with what `empty_io` of the engine says. -/
def State.emptyWaitTask (s : State ι χ) (c : χ) (emptyIo : Bool) : Bool :=
  s.numWait c == 0 && emptyIo

inductive Label (ι χ : Type)
  /-- `co_await` of a new awaiter; `c` is `local_context()`. -/
  | await (i : ι) (kind : Kind) (c : χ)
  | registerWait (i : ι)
  /-- `mutex_awaiter::register_lock` returns. -/
  | registerLock (i : ι) (pushed : Bool)
  | isSet (i : ι) (set : Bool)
  /-- `event_base::register_awaiter` returns. -/
  | registerAwaiter (i : ι) (pushed : Bool)
  /-- The loop of the wait group returns. -/
  | loadCount (i : ι) (pushed : Bool)
  | cond (i : ι) (value : Bool)
  | registerCv (i : ι)
  /-- A notification took the awaiter off the list and calls `wake_up`. -/
  | wakeUp (i : ι)
  /-- `unlock`, `set_state` or `done` took the awaiter off its list and calls
  `resume` or `submit_task`. -/
  | resume (i : ι)
  /-- The task that was submitted is executed. -/
  | exec (i : ι)
  | awaitResume (i : ι)

def step (s : State ι χ) : Label ι χ → Option (State ι χ)
  | .await i kind c =>
    if s.pc i = .idle then
      some { s.goto i kind.start with
        kind := Function.update s.kind i kind
        ctx := Function.update s.ctx i c
        suspendState := Function.update s.suspendState i false }
    else none
  | .registerWait i =>
    if s.pc i = .registerWait then
      let s' := (s.registerWait (s.ctx i) ((s.kind i).registerCnt (s.suspendState i))).goto i
        (s.kind i).registered
      match s.kind i with
      | .cv _ => some { s' with suspendState := Function.update s.suspendState i true }
      | _ => some s'
    else none
  | .registerLock i pushed =>
    if s.pc i = .registerLock then
      if pushed then some (s.goto i .queued)
      else match s.kind i with
        | .cv hasCond => some (s.goto i (resumeCv hasCond)) -- in wake_up
        | _ => some (s.goto i .resuming)
    else none
  | .isSet i set =>
    if s.pc i = .isSet then some (s.goto i (if set then .resuming else .registerAwaiter))
    else none
  | .registerAwaiter i pushed =>
    if s.pc i = .registerAwaiter then some (s.goto i (if pushed then .parked else .resuming))
    else none
  | .loadCount i pushed =>
    if s.pc i = .loadCount then some (s.goto i (if pushed then .parked else .resuming))
    else none
  | .cond i value =>
    match s.pc i with
    | .cond => some (s.goto i (if value then .resuming else .registerWait))
    | .condResume => some (s.goto i (if value then .requeued else .registerWait))
    | _ => none
  | .registerCv i => if s.pc i = .registerCv then some (s.goto i .parked) else none
  | .wakeUp i =>
    match s.pc i, s.kind i with
    | .parked, .cv _ => some (s.goto i .registerLock)
    | _, _ => none
  | .resume i =>
    match s.pc i, s.kind i with
    | .queued, .mutex => some (s.goto i .requeued)
    | .queued, .cv hasCond => some (s.goto i (resumeCv hasCond))
    | .parked, .event | .parked, .waitGroup => some (s.goto i .requeued)
    | _, _ => none
  | .exec i => if s.pc i = .requeued then some (s.goto i .resuming) else none
  | .awaitResume i =>
    if s.pc i = .resuming then
      some ((s.unregisterWait (s.ctx i) ((s.kind i).unregisterCnt (s.suspendState i))).goto i
        .idle)
    else none

/-- Nobody waits. -/
structure Init (s : State ι χ) : Prop where
  pc : ∀ i, s.pc i = .idle
  numWait : ∀ c, s.numWait c = 0

/-- No awaiter has been created yet. -/
def newState (c : χ) : State ι χ where
  pc _ := .idle
  kind _ := .mutex
  ctx _ := c
  suspendState _ := false
  numWait _ := 0

omit [DecidableEq ι] [DecidableEq χ] in
theorem init_newState (c : χ) : Init (newState c : State ι χ) :=
  ⟨fun _ => rfl, fun _ => rfl⟩

variable (ι χ) in
def machine : Machine (State ι χ) (Label ι χ) where
  init := Init
  step := step

/-- The awaiters of a context that have called `register_wait` and have not
called `await_resume` since. -/
def noteRegistered (s : State ι χ) (a : Label ι χ) (registered : χ → Finset ι) (c : χ) :
    Finset ι :=
  match a with
  | .registerWait i => if s.ctx i = c then insert i (registered c) else registered c
  | .awaitResume i => if s.ctx i = c then (registered c).erase i else registered c
  | _ => registered c

/-- The coroutine is suspended, or was submitted and does not run yet. -/
def State.Suspended (s : State ι χ) (i : ι) : Prop :=
  match s.pc i with
  | .parked | .queued | .requeued | .condResume | .registerCv => True
  | .registerLock => s.kind i ≠ .mutex
  | .registerWait => s.suspendState i = true
  | _ => False

end Machine

end SheepCoro.Waits
