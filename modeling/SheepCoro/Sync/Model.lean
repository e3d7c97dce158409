import SheepCoro.Lib.Machine
import Mathlib.Logic.Function.Basic

/-!
# The mutex and the condition variables on it

`src/comp/mutex.cpp` and `src/comp/condition_variable.cpp` as a machine: one
mutex, any number of coroutines (`ι`), of condition variables (`κ`) and of
callers of `notify_all` (`ν`).  A coroutine is in at most one `co_await`, so
it and its awaiter have the same name, and the name is also the address of
the awaiter: a later `lock` of the same coroutine uses the storage again.

`m_state` is one word: `nolocked`, or the head of the stack of awaiters that
were pushed since the holder last looked.  `m_resume_list_head` is only
touched by the holder.  Every load, compare-and-exchange and exchange of the
word is a step; so is every turn of the loop in `unlock` that reverses the
stack, the update of the resume list, and the hand-off.  The critical
sections of the spinlock in a condition variable are one step each.

A coroutine has two coordinates.  `loc` is where its awaiter is: on the list
of a condition variable, in the hands of a notifier, in `register_lock`, or
on one of the lists of the mutex.  `hold` is what it does with the lock.  A
waiter is on the list of the condition variable before it has released the
mutex, so both may be set at once.  Code that a notifier or an unlocking
thread runs on behalf of an awaiter (`wake_up`, `resume`) is a step of that
awaiter.

A predicate reads data that this machine does not have.  Its value is part of
the label `eval`.
-/

namespace SheepCoro.Sync

open Lib

/-- The word `m_state`. -/
inductive MutexState (ι : Type)
  | nolocked
  /-- `locked none` is `locked_no_waiting`, the null pointer. -/
  | locked (head : Option ι)
deriving DecidableEq

/-- The pointer that the word holds. -/
def MutexState.head {ι : Type} : MutexState ι → Option ι
  | .nolocked => none
  | .locked head => head

/-- Where an awaiter is. -/
inductive Loc (ι κ : Type)
  /-- Not waiting. -/
  | none
  /-- On the list of a condition variable. -/
  | parked (k : κ)
  /-- On the list that a `notify_all` took away. -/
  | captured
  /-- In `mutex_awaiter::register_lock`, about to load `m_state`. -/
  | load
  /-- In `register_lock` with the loaded word, about to compare and
  exchange. -/
  | cas (state : MutexState ι)
  /-- On the stack or on the resume list of the mutex. -/
  | queued
deriving DecidableEq

/-- What the holder of the lock does. -/
inductive Hold (ι : Type)
  /-- Not the holder. -/
  | none
  /-- The coroutine was resumed, or it is about to run on. -/
  | granted
  /-- The coroutine runs with the lock. -/
  | inside
  /-- In `cv_awaiter::register_lock`, about to evaluate the predicate. -/
  | evalWait
  /-- In `cv_awaiter::resume`, about to evaluate the predicate. -/
  | evalResume
  /-- About to call `register_cv`. -/
  | registerCv
  /-- In `unlock`, about to read `m_resume_list_head`. -/
  | readResumeList
  /-- About to compare and exchange `locked_no_waiting` for `nolocked`. -/
  | casUnlock
  /-- About to exchange the stack. -/
  | exchange
  /-- In the loop that reverses the stack. -/
  | reverse (awaiter : ι) (toResume : Option ι)
  /-- About to store `m_resume_list_head`. -/
  | popResumeList (toResume : ι)
  /-- About to call `to_resume->resume()`. -/
  | handOff (toResume : ι)
deriving DecidableEq

/-- The dynamic type of an awaiter. -/
inductive Kind (κ : Type)
  | mutexAwaiter
  | cvAwaiter (k : κ) (hasCond : Bool)
deriving DecidableEq

structure State (ι κ ν : Type) where
  /-- `m_state`. -/
  state : MutexState ι
  /-- `m_resume_list_head`. -/
  resumeList : Option ι
  /-- `m_next`. -/
  next : ι → Option ι
  /-- `m_head` of a condition variable. -/
  cvHead : κ → Option ι
  /-- `m_tail` of a condition variable. -/
  cvTail : κ → Option ι
  /-- `cur_head` in `notify_all`. -/
  curHead : ν → Option ι
  loc : ι → Loc ι κ
  hold : ι → Hold ι
  kind : ι → Kind κ

section Machine

variable {ι κ ν : Type} [DecidableEq ι] [DecidableEq κ] [DecidableEq ν]

def State.setLoc (s : State ι κ ν) (i : ι) (l : Loc ι κ) : State ι κ ν :=
  { s with loc := Function.update s.loc i l }

def State.setHold (s : State ι κ ν) (i : ι) (h : Hold ι) : State ι κ ν :=
  { s with hold := Function.update s.hold i h }

def State.setNext (s : State ι κ ν) (i : ι) (p : Option ι) : State ι κ ν :=
  { s with next := Function.update s.next i p }

/-- The first step of `resume()`, which is virtual. -/
def Kind.resume : Kind κ → Hold ι
  | .cvAwaiter _ true => .evalResume
  | .cvAwaiter _ false | .mutexAwaiter => .granted

/-- The awaiter owns the lock from here on. -/
def State.grant (s : State ι κ ν) (i : ι) : State ι κ ν :=
  (s.setLoc i .none).setHold i (s.kind i).resume

/-- One turn of `mutex_awaiter::register_lock`.  `spurious` says that
`compare_exchange_weak` fails although the word has the expected value. -/
def registerLock (s : State ι κ ν) (i : ι) (spurious : Bool) : Option (State ι κ ν) :=
  match s.loc i with
  | .load => some ((s.setNext i s.state.head).setLoc i (.cas s.state))
  | .cas expected =>
    if s.state = expected ∧ spurious = false then
      match expected with
      | .nolocked => some ({ s with state := .locked none }.grant i)
      | .locked _ => some ({ s with state := .locked (some i) }.setLoc i .queued)
    else some (s.setLoc i .load)
  | _ => none

/-- The next step of `mutex::unlock`. -/
def unlock (s : State ι κ ν) (i : ι) : Option (State ι κ ν) :=
  match s.hold i with
  | .readResumeList =>
    match s.resumeList with
    | some t => some (s.setHold i (.popResumeList t))
    | none => some (s.setHold i .casUnlock)
  | .casUnlock =>
    if s.state = .locked none then some ({ s with state := .nolocked }.setHold i .none)
    else some (s.setHold i .exchange)
  | .exchange =>
    match s.state with
    | .locked (some a) => some ({ s with state := .locked none }.setHold i (.reverse a none))
    | _ => none -- assert(head != nolocked && head != locked_no_waiting)
  | .reverse a t =>
    match s.next a with
    | some b => some ((s.setNext a t).setHold i (.reverse b (some a)))
    | none => some ((s.setNext a t).setHold i (.popResumeList a))
  | .popResumeList t => some ({ s with resumeList := s.next t }.setHold i (.handOff t))
  | .handOff t => some ((s.setHold i .none).grant t)
  | _ => none

/-- `register_cv`, and the awaiter goes on to `unlock`. -/
def registerCv (s : State ι κ ν) (i : ι) (k : κ) : State ι κ ν :=
  let s := (s.setNext i none).setHold i .readResumeList
  match s.cvTail k with
  | some t =>
    { (s.setNext t (some i)).setLoc i (.parked k) with
      cvTail := Function.update s.cvTail k (some i) }
  | none =>
    { s.setLoc i (.parked k) with
      cvHead := Function.update s.cvHead k (some i)
      cvTail := Function.update s.cvTail k (some i) }

/-- The critical section of `notify_one`; the awaiter is then in
`wake_up`. -/
def notifyOne (s : State ι κ ν) (k : κ) : State ι κ ν :=
  match s.cvHead k with
  | some a =>
    { s.setLoc a .load with
      cvHead := Function.update s.cvHead k (s.next a)
      cvTail := if s.next a = none then Function.update s.cvTail k none else s.cvTail }
  | none => s

/-- The critical section of `notify_all`. -/
def notifyAll (s : State ι κ ν) (m : ν) (k : κ) : State ι κ ν :=
  { s with
    curHead := Function.update s.curHead m (s.cvHead k)
    cvHead := Function.update s.cvHead k none
    cvTail := Function.update s.cvTail k none
    loc := fun i => if s.loc i = .parked k then .captured else s.loc i }

inductive Label (ι κ ν : Type)
  /-- `co_await lock()` or `co_await lock_guard()`. -/
  | lock (i : ι)
  | tryLock (i : ι)
  | registerLock (i : ι) (spurious : Bool)
  /-- The coroutine that was resumed runs on. -/
  | enter (i : ι)
  /-- The holder calls `unlock`. -/
  | callUnlock (i : ι)
  | unlock (i : ι)
  /-- `co_await wait(mtx)` or `co_await wait(mtx, cond)`. -/
  | wait (i : ι) (k : κ) (hasCond : Bool)
  | eval (i : ι) (value : Bool)
  | registerCv (i : ι)
  | notifyOne (k : κ)
  | notifyAll (m : ν) (k : κ)
  /-- One turn of the loop in `notify_all`. -/
  | notifyNext (m : ν)
  /-- The storage of an awaiter that is not waiting is written to. -/
  | reuse (i : ι) (p : Option ι)

def step (s : State ι κ ν) : Label ι κ ν → Option (State ι κ ν)
  | .lock i =>
    if s.loc i = .none ∧ s.hold i = .none then
      some { s.setLoc i .load with kind := Function.update s.kind i .mutexAwaiter }
    else none
  | .tryLock i =>
    if s.loc i = .none ∧ s.hold i = .none then
      if s.state = .nolocked then some ({ s with state := .locked none }.setHold i .inside)
      else some s
    else none
  | .registerLock i spurious => registerLock s i spurious
  | .enter i => if s.hold i = .granted then some (s.setHold i .inside) else none
  | .callUnlock i => if s.hold i = .inside then some (s.setHold i .readResumeList) else none
  | .unlock i => unlock s i
  | .wait i k hasCond =>
    if s.hold i = .inside then
      some { s.setHold i (if hasCond then .evalWait else .registerCv) with
        kind := Function.update s.kind i (.cvAwaiter k hasCond) }
    else none
  | .eval i value =>
    match s.hold i with
    | .evalWait => some (s.setHold i (if value then .inside else .registerCv))
    | .evalResume => some (s.setHold i (if value then .granted else .registerCv))
    | _ => none
  | .registerCv i =>
    match s.hold i, s.kind i with
    | .registerCv, .cvAwaiter k _ => some (registerCv s i k)
    | _, _ => none
  | .notifyOne k => some (notifyOne s k)
  | .notifyAll m k => if s.curHead m = none then some (notifyAll s m k) else none
  | .notifyNext m =>
    match s.curHead m with
    | some a => some { s.setLoc a .load with curHead := Function.update s.curHead m (s.next a) }
    | none => none
  | .reuse i p => if s.loc i = .none then some (s.setNext i p) else none

/-- What a step does, one case for each way to go on. -/
inductive StepCase (s : State ι κ ν) : Label ι κ ν → State ι κ ν → Prop
  | lock {i : ι} (hloc : s.loc i = .none) (hhold : s.hold i = .none) :
    StepCase s (.lock i) { s.setLoc i .load with kind := Function.update s.kind i .mutexAwaiter }
  | tryLock {i : ι} (hloc : s.loc i = .none) (hhold : s.hold i = .none)
      (hfree : s.state = .nolocked) :
    StepCase s (.tryLock i) ({ s with state := .locked none }.setHold i .inside)
  | tryLockFails {i : ι} (hlocked : s.state ≠ .nolocked) : StepCase s (.tryLock i) s
  | registerLock {i : ι} {spurious : Bool} {s' : State ι κ ν}
      (hreg : Sync.registerLock s i spurious = some s') :
    StepCase s (.registerLock i spurious) s'
  | enter {i : ι} (hhold : s.hold i = .granted) : StepCase s (.enter i) (s.setHold i .inside)
  | callUnlock {i : ι} (hhold : s.hold i = .inside) :
    StepCase s (.callUnlock i) (s.setHold i .readResumeList)
  | unlock {i : ι} {s' : State ι κ ν} (hunlock : Sync.unlock s i = some s') :
    StepCase s (.unlock i) s'
  | wait {i : ι} {k : κ} {hasCond : Bool} (hhold : s.hold i = .inside) :
    StepCase s (.wait i k hasCond) { s.setHold i (if hasCond then .evalWait else .registerCv) with
      kind := Function.update s.kind i (.cvAwaiter k hasCond) }
  | evalWait {i : ι} {value : Bool} (hhold : s.hold i = .evalWait) :
    StepCase s (.eval i value) (s.setHold i (if value then .inside else .registerCv))
  | evalResume {i : ι} {value : Bool} (hhold : s.hold i = .evalResume) :
    StepCase s (.eval i value) (s.setHold i (if value then .granted else .registerCv))
  | registerCv {i : ι} {k : κ} {hasCond : Bool} (hhold : s.hold i = .registerCv)
      (hkind : s.kind i = .cvAwaiter k hasCond) :
    StepCase s (.registerCv i) (Sync.registerCv s i k)
  | notifyOne {k : κ} : StepCase s (.notifyOne k) (Sync.notifyOne s k)
  | notifyAll {m : ν} {k : κ} (hm : s.curHead m = none) :
    StepCase s (.notifyAll m k) (Sync.notifyAll s m k)
  | notifyNext {m : ν} {a : ι} (ha : s.curHead m = some a) :
    StepCase s (.notifyNext m)
      { s.setLoc a .load with curHead := Function.update s.curHead m (s.next a) }
  | reuse {i : ι} {p : Option ι} (hloc : s.loc i = .none) :
    StepCase s (.reuse i p) (s.setNext i p)

theorem step_cases {s s' : State ι κ ν} {a : Label ι κ ν} (hs : step s a = some s') :
    StepCase s a s' := by
  cases a with
  | lock i =>
    obtain ⟨⟨hloc, hhold⟩, ⟨⟩⟩ := Option.ite_none_right_eq_some.mp hs
    exact .lock hloc hhold
  | tryLock i =>
    obtain ⟨⟨hloc, hhold⟩, hs⟩ := Option.ite_none_right_eq_some.mp hs
    split_ifs at hs with hfree
    · cases hs
      exact .tryLock hloc hhold hfree
    · cases hs
      exact .tryLockFails hfree
  | registerLock i spurious => exact .registerLock hs
  | enter i =>
    obtain ⟨hhold, ⟨⟩⟩ := Option.ite_none_right_eq_some.mp hs
    exact .enter hhold
  | callUnlock i =>
    obtain ⟨hhold, ⟨⟩⟩ := Option.ite_none_right_eq_some.mp hs
    exact .callUnlock hhold
  | unlock i => exact .unlock hs
  | wait i k hasCond =>
    obtain ⟨hhold, ⟨⟩⟩ := Option.ite_none_right_eq_some.mp hs
    exact .wait hhold
  | eval i value =>
    simp only [step] at hs
    split at hs
    · next hhold =>
      cases hs
      exact .evalWait hhold
    · next hhold =>
      cases hs
      exact .evalResume hhold
    · cases hs
  | registerCv i =>
    simp only [step] at hs
    split at hs
    · next k hasCond hhold hkind =>
      cases hs
      exact .registerCv hhold hkind
    · cases hs
  | notifyOne k =>
    cases hs
    exact .notifyOne
  | notifyAll m k =>
    obtain ⟨hm, ⟨⟩⟩ := Option.ite_none_right_eq_some.mp hs
    exact .notifyAll hm
  | notifyNext m =>
    simp only [step] at hs
    split at hs
    · next a ha =>
      cases hs
      exact .notifyNext ha
    · cases hs
  | reuse i p =>
    obtain ⟨hloc, ⟨⟩⟩ := Option.ite_none_right_eq_some.mp hs
    exact .reuse hloc

/-- A new mutex and new condition variables. -/
structure Init (s : State ι κ ν) : Prop where
  state : s.state = .nolocked
  resumeList : s.resumeList = none
  cvHead : ∀ k, s.cvHead k = none
  cvTail : ∀ k, s.cvTail k = none
  curHead : ∀ m, s.curHead m = none
  loc : ∀ i, s.loc i = .none
  hold : ∀ i, s.hold i = .none

variable (ι κ ν) in
def machine : Machine (State ι κ ν) (Label ι κ ν) where
  init := Init
  step := step

end Machine

end SheepCoro.Sync
