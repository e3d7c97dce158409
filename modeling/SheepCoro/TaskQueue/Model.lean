import SheepCoro.Lib.Machine
import SheepCoro.TaskQueue.Index

/-!
# The task queue of an engine

`AtomicQueueB2<coroutine_handle<>, ..., true, false, false>` with its states,
as `src/engine.cpp` uses it: any number of threads (`ι`) call `try_push` from
`submit_task`, and one of them, the worker, calls `was_size` from
`num_task_schedule` and `ready`, and `pop` from `schedule`.  The worker calls
`try_push` too, while it executes a task.

Each atomic operation is one step, and so is each access to an element.  The
two counters are the numbers of increments, and the code sees them as words
(`word`); a ticket is such a number, and a compare-and-exchange compares the
words.

In `process_work` the worker reads `was_size` once and then calls `pop` that
often; `left` is the number of calls that are still to come.
-/

namespace SheepCoro.TaskQueue

open Lib

structure Config (ι : Type) where
  /-- `config::kQueCap`, the argument of the constructor. -/
  cap : Word
  worker : ι

/-- `size_`. -/
def Config.size {ι : Type} (cfg : Config ι) : Word :=
  queueSize cfg.cap

/-- The slot of a ticket. -/
def Config.slot {ι : Type} (cfg : Config ι) (ticket : Nat) : Word :=
  slotOf cfg.size (word ticket)

/-- `State`. -/
inductive SlotState
  | empty
  | storing
  | stored
  | loading
deriving DecidableEq

/-- Where a thread is in a call on the queue. -/
inductive Pc (E : Type)
  | out
  /-- In `try_push`, about to load `tail_`. -/
  | loadTail (e : E) (head : Nat)
  /-- About to compare and exchange `head_`. -/
  | casHead (e : E) (head : Nat)
  /-- In `do_push_any`, about to compare and exchange the state. -/
  | claimEmpty (e : E) (ticket : Nat)
  /-- In the speculative loads of `do_push_any`. -/
  | seeEmpty (e : E) (ticket : Nat)
  /-- About to assign the element. -/
  | store (e : E) (ticket : Nat)
  /-- About to store `STORED`. -/
  | publish (ticket : Nat)
  /-- In `was_size`, about to load `tail_`; `batch` in `num_task_schedule`. -/
  | sizeTail (batch : Bool) (head : Nat)
  /-- In `do_pop_any`, about to compare and exchange the state. -/
  | claimStored (ticket : Nat)
  /-- In the speculative loads of `do_pop_any`. -/
  | seeStored (ticket : Nat)
  /-- About to move the element. -/
  | load (ticket : Nat)
  /-- About to store `EMPTY`. -/
  | release (e : E) (ticket : Nat)

structure State (ι E : Type) where
  /-- The increments of `head_`. -/
  head : Nat
  /-- The increments of `tail_`. -/
  tail : Nat
  /-- `states_`. -/
  slot : Word → SlotState
  /-- `elements_`. -/
  elem : Word → E
  pc : ι → Pc E
  /-- The calls of `exec_one_task` that are left in `process_work`. -/
  left : Nat

inductive Label (ι E : Type)
  | tryPush (t : ι) (e : E)
  | loadTail (t : ι)
  | casHead (t : ι) (spurious : Bool)
  | claimEmpty (t : ι) (spurious : Bool)
  | seeEmpty (t : ι)
  | store (t : ι)
  | publish (t : ι)
  | wasSize (batch : Bool)
  | sizeTail
  | pop
  | claimStored (spurious : Bool)
  | seeStored
  | load
  | release

/-- The comparison of `try_push`, with both sides cast to `int`. -/
def full (size head tail : Word) : Prop :=
  size.toInt ≤ (head - tail).toInt

instance (size head tail : Word) : Decidable (full size head tail) :=
  inferInstanceAs (Decidable (_ ≤ _))

/-- The result of `was_size`. -/
def wasSize (head tail : Word) : Nat :=
  (max (head - tail).toInt 0).toNat

variable {ι E : Type} [DecidableEq ι]

def State.goto (s : State ι E) (t : ι) (pc : Pc E) : State ι E :=
  { s with pc := Function.update s.pc t pc }

def State.setSlot (s : State ι E) (i : Word) (v : SlotState) : State ι E :=
  { s with slot := Function.update s.slot i v }

def State.setElem (s : State ι E) (i : Word) (e : E) : State ι E :=
  { s with elem := Function.update s.elem i e }

/-- One atomic operation of a thread. -/
def step (cfg : Config ι) (s : State ι E) : Label ι E → Option (State ι E)
  | .tryPush t e =>
    match s.pc t with
    | .out => some (s.goto t (.loadTail e s.head))
    | _ => none
  | .loadTail t =>
    match s.pc t with
    | .loadTail e head =>
      some (s.goto t (if full cfg.size (word head) (word s.tail) then .out else .casHead e head))
    | _ => none
  | .casHead t spurious =>
    match s.pc t with
    | .casHead e head =>
      if word s.head = word head ∧ spurious = false then
        some ({ s with head := s.head + 1 }.goto t (.claimEmpty e s.head))
      else
        -- The failed exchange loads `head_`.
        some (s.goto t (.loadTail e s.head))
    | _ => none
  | .claimEmpty t spurious =>
    match s.pc t with
    | .claimEmpty e ticket =>
      if s.slot (cfg.slot ticket) = .empty ∧ spurious = false then
        some ((s.setSlot (cfg.slot ticket) .storing).goto t (.store e ticket))
      else some (s.goto t (.seeEmpty e ticket))
    | _ => none
  | .seeEmpty t =>
    match s.pc t with
    | .seeEmpty e ticket =>
      if s.slot (cfg.slot ticket) = .empty then some (s.goto t (.claimEmpty e ticket))
      else some s
    | _ => none
  | .store t =>
    match s.pc t with
    | .store e ticket => some ((s.setElem (cfg.slot ticket) e).goto t (.publish ticket))
    | _ => none
  | .publish t =>
    match s.pc t with
    | .publish ticket => some ((s.setSlot (cfg.slot ticket) .stored).goto t .out)
    | _ => none
  | .wasSize batch =>
    match s.pc cfg.worker with
    | .out => if s.left = 0 then some (s.goto cfg.worker (.sizeTail batch s.head)) else none
    | _ => none
  | .sizeTail =>
    match s.pc cfg.worker with
    | .sizeTail batch head =>
      -- `ready` only looks at the result.
      some ({ s with left := if batch then wasSize (word head) (word s.tail) else 0 }.goto
        cfg.worker .out)
    | _ => none
  | .pop =>
    match s.pc cfg.worker with
    | .out =>
      if 0 < s.left then
        some ({ s with tail := s.tail + 1, left := s.left - 1 }.goto cfg.worker
          (.claimStored s.tail))
      else none
    | _ => none
  | .claimStored spurious =>
    match s.pc cfg.worker with
    | .claimStored ticket =>
      if s.slot (cfg.slot ticket) = .stored ∧ spurious = false then
        some ((s.setSlot (cfg.slot ticket) .loading).goto cfg.worker (.load ticket))
      else some (s.goto cfg.worker (.seeStored ticket))
    | _ => none
  | .seeStored =>
    match s.pc cfg.worker with
    | .seeStored ticket =>
      if s.slot (cfg.slot ticket) = .stored then
        some (s.goto cfg.worker (.claimStored ticket))
      else some s
    | _ => none
  | .load =>
    match s.pc cfg.worker with
    | .load ticket => some (s.goto cfg.worker (.release (s.elem (cfg.slot ticket)) ticket))
    | _ => none
  | .release =>
    match s.pc cfg.worker with
    | .release _ ticket => some ((s.setSlot (cfg.slot ticket) .empty).goto cfg.worker .out)
    | _ => none

/-- What a step does, one case for each way to go on. -/
inductive StepCase (cfg : Config ι) (s : State ι E) : Label ι E → State ι E → Prop
  | tryPush {t : ι} {e : E} (hpc : s.pc t = .out) :
    StepCase cfg s (.tryPush t e) (s.goto t (.loadTail e s.head))
  | refuse {t : ι} {e : E} {head : Nat} (hpc : s.pc t = .loadTail e head)
      (hfull : full cfg.size (word head) (word s.tail)) :
    StepCase cfg s (.loadTail t) (s.goto t .out)
  | loadTail {t : ι} {e : E} {head : Nat} (hpc : s.pc t = .loadTail e head)
      (hroom : ¬ full cfg.size (word head) (word s.tail)) :
    StepCase cfg s (.loadTail t) (s.goto t (.casHead e head))
  | casHead {t : ι} {e : E} {head : Nat} (hpc : s.pc t = .casHead e head)
      (hword : word s.head = word head) :
    StepCase cfg s (.casHead t false)
      ({ s with head := s.head + 1 }.goto t (.claimEmpty e s.head))
  | casFails {t : ι} {e : E} {head : Nat} {spurious : Bool} (hpc : s.pc t = .casHead e head)
      (hfail : ¬ (word s.head = word head ∧ spurious = false)) :
    StepCase cfg s (.casHead t spurious) (s.goto t (.loadTail e s.head))
  | claimEmpty {t : ι} {e : E} {ticket : Nat} (hpc : s.pc t = .claimEmpty e ticket)
      (hempty : s.slot (cfg.slot ticket) = .empty) :
    StepCase cfg s (.claimEmpty t false)
      ((s.setSlot (cfg.slot ticket) .storing).goto t (.store e ticket))
  | waitEmpty {t : ι} {e : E} {ticket : Nat} {spurious : Bool}
      (hpc : s.pc t = .claimEmpty e ticket) :
    StepCase cfg s (.claimEmpty t spurious) (s.goto t (.seeEmpty e ticket))
  | seeEmpty {t : ι} {e : E} {ticket : Nat} (hpc : s.pc t = .seeEmpty e ticket) :
    StepCase cfg s (.seeEmpty t) (s.goto t (.claimEmpty e ticket))
  | spinEmpty {t : ι} {e : E} {ticket : Nat} (hpc : s.pc t = .seeEmpty e ticket)
      (hbusy : s.slot (cfg.slot ticket) ≠ .empty) : StepCase cfg s (.seeEmpty t) s
  | store {t : ι} {e : E} {ticket : Nat} (hpc : s.pc t = .store e ticket) :
    StepCase cfg s (.store t) ((s.setElem (cfg.slot ticket) e).goto t (.publish ticket))
  | publish {t : ι} {ticket : Nat} (hpc : s.pc t = .publish ticket) :
    StepCase cfg s (.publish t) ((s.setSlot (cfg.slot ticket) .stored).goto t .out)
  | wasSize {batch : Bool} (hpc : s.pc cfg.worker = .out) (hleft : s.left = 0) :
    StepCase cfg s (.wasSize batch) (s.goto cfg.worker (.sizeTail batch s.head))
  | sizeTail {batch : Bool} {head : Nat} (hpc : s.pc cfg.worker = .sizeTail batch head) :
    StepCase cfg s .sizeTail
      ({ s with left := if batch then wasSize (word head) (word s.tail) else 0 }.goto
        cfg.worker .out)
  | pop (hpc : s.pc cfg.worker = .out) (hleft : 0 < s.left) :
    StepCase cfg s .pop
      ({ s with tail := s.tail + 1, left := s.left - 1 }.goto cfg.worker (.claimStored s.tail))
  | claimStored {ticket : Nat} (hpc : s.pc cfg.worker = .claimStored ticket)
      (hstored : s.slot (cfg.slot ticket) = .stored) :
    StepCase cfg s (.claimStored false)
      ((s.setSlot (cfg.slot ticket) .loading).goto cfg.worker (.load ticket))
  | waitStored {ticket : Nat} {spurious : Bool}
      (hpc : s.pc cfg.worker = .claimStored ticket) :
    StepCase cfg s (.claimStored spurious) (s.goto cfg.worker (.seeStored ticket))
  | seeStored {ticket : Nat} (hpc : s.pc cfg.worker = .seeStored ticket) :
    StepCase cfg s .seeStored (s.goto cfg.worker (.claimStored ticket))
  | spinStored {ticket : Nat} (hpc : s.pc cfg.worker = .seeStored ticket)
      (hbusy : s.slot (cfg.slot ticket) ≠ .stored) : StepCase cfg s .seeStored s
  | load {ticket : Nat} (hpc : s.pc cfg.worker = .load ticket) :
    StepCase cfg s .load (s.goto cfg.worker (.release (s.elem (cfg.slot ticket)) ticket))
  | release {e : E} {ticket : Nat} (hpc : s.pc cfg.worker = .release e ticket) :
    StepCase cfg s .release ((s.setSlot (cfg.slot ticket) .empty).goto cfg.worker .out)

theorem step_cases {cfg : Config ι} {s s' : State ι E} {a : Label ι E}
    (hs : step cfg s a = some s') : StepCase cfg s a s' := by
  cases a with
  | tryPush t e =>
    simp only [step] at hs
    split at hs <;> cases hs
    exact .tryPush ‹_›
  | loadTail t =>
    simp only [step] at hs
    split at hs <;> cases hs
    split_ifs with hfull
    · exact .refuse ‹_› hfull
    · exact .loadTail ‹_› hfull
  | casHead t spurious =>
    simp only [step] at hs
    split at hs
    · split_ifs at hs with hcas <;> cases hs
      · obtain ⟨hword, rfl⟩ := hcas
        exact .casHead ‹_› hword
      · exact .casFails ‹_› hcas
    · cases hs
  | claimEmpty t spurious =>
    simp only [step] at hs
    split at hs
    · split_ifs at hs with hcas <;> cases hs
      · obtain ⟨hempty, rfl⟩ := hcas
        exact .claimEmpty ‹_› hempty
      · exact .waitEmpty ‹_›
    · cases hs
  | seeEmpty t =>
    simp only [step] at hs
    split at hs
    · split_ifs at hs with hempty <;> cases hs
      · exact .seeEmpty ‹_›
      · exact .spinEmpty ‹_› hempty
    · cases hs
  | store t =>
    simp only [step] at hs
    split at hs <;> cases hs
    exact .store ‹_›
  | publish t =>
    simp only [step] at hs
    split at hs <;> cases hs
    exact .publish ‹_›
  | wasSize batch =>
    simp only [step] at hs
    split at hs
    · obtain ⟨hleft, ⟨⟩⟩ := Option.ite_none_right_eq_some.mp hs
      exact .wasSize ‹_› hleft
    · cases hs
  | sizeTail =>
    simp only [step] at hs
    split at hs <;> cases hs
    exact .sizeTail ‹_›
  | pop =>
    simp only [step] at hs
    split at hs
    · obtain ⟨hleft, ⟨⟩⟩ := Option.ite_none_right_eq_some.mp hs
      exact .pop ‹_› hleft
    · cases hs
  | claimStored spurious =>
    simp only [step] at hs
    split at hs
    · split_ifs at hs with hcas <;> cases hs
      · obtain ⟨hstored, rfl⟩ := hcas
        exact .claimStored ‹_› hstored
      · exact .waitStored ‹_›
    · cases hs
  | seeStored =>
    simp only [step] at hs
    split at hs
    · split_ifs at hs with hstored <;> cases hs
      · exact .seeStored ‹_›
      · exact .spinStored ‹_› hstored
    · cases hs
  | load =>
    simp only [step] at hs
    split at hs <;> cases hs
    exact .load ‹_›
  | release =>
    simp only [step] at hs
    split at hs <;> cases hs
    exact .release ‹_›

/-- A new queue. -/
def newState [Inhabited E] : State ι E where
  head := 0
  tail := 0
  slot _ := .empty
  elem _ := default
  pc _ := .out
  left := 0

/-- The queue and its threads, from the constructor on. -/
def machine [Inhabited E] (cfg : Config ι) : Machine (State ι E) (Label ι E) where
  init s := s = newState
  step := step cfg

/-- The queue of an engine with one submitter, `true`. -/
def oneSubmitter : Config Bool where
  cap := 16384
  worker := false

/-- Two handles are pushed, the worker takes the first one and waits in the
second `pop`. -/
def twoHandles : List (Label Bool Nat) :=
  [.tryPush true 7, .loadTail true, .casHead true false, .claimEmpty true false, .store true,
    .publish true, .tryPush true 8, .loadTail true, .casHead true false, .wasSize true,
    .sizeTail, .pop, .claimStored false, .load, .release, .pop, .claimStored false]

end SheepCoro.TaskQueue
