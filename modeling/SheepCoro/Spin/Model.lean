import SheepCoro.Lib.Guarded
import SheepCoro.Sync.Model

/-!
# The lists of the condition variables, access by access

`SheepCoro.Sync` takes each critical section of the spinlock in a condition
variable for one step.  Here `register_cv`, `notify_one` and `notify_all` of
`src/comp/condition_variable.cpp` and `lock` of `include/coro/spinlock.hpp`
are taken apart: every exchange, load and store of `lock_` and every load and
store of `m_head`, `m_tail` and `m_next` is a step, and other threads take
theirs in between.  The rest is the machine of `Sync`.

A caller in one of the functions has a position (`Pc`) with its local
variables.  `access` is the memory access of a position behind the spinlock.
`unlock` is the store that ends a section, and with it the awaiter has another
place in the sense of `Sync`: the caller of `register_cv` goes on to unlock
the mutex, and a waiter that was taken is in `wake_up`.

The storage of an awaiter in `register_cv` is not written to by others.
-/

namespace SheepCoro.Spin

open Lib

inductive Caller (ι ν : Type)
  /-- Whoever runs `register_cv` of this awaiter. -/
  | awaiter (i : ι)
  /-- A thread in `notify_one` or `notify_all`. -/
  | notifier (m : ν)
deriving DecidableEq

inductive Op
  | registerCv
  | notifyOne
  | notifyAll
deriving DecidableEq

/-- The next access of a caller. -/
inductive Pc (ι : Type)
  /-- `lock_.exchange(true)`. -/
  | exchange (op : Op)
  /-- The load of `lock_` in the inner loop. -/
  | load (op : Op)
  /-- `register_cv`: the test of `m_tail`. -/
  | readTail
  /-- `m_tail = this` in an empty list. -/
  | storeTail
  | storeHead
  /-- The load of `m_tail` for `m_tail->m_next`. -/
  | loadTail
  | storeNext (tail : ι)
  /-- `m_tail = this` behind another awaiter. -/
  | moveTail
  /-- About to unlock. -/
  | linked
  /-- `notify_one`: the load of `m_head`. -/
  | readHead
  /-- The load of `m_head` for `m_head->m_next`. -/
  | loadHead (cur : ι)
  | readNext (cur head : ι)
  | storeNextHead (cur : ι) (next : Option ι)
  /-- The test of the new `m_head`. -/
  | testHead (cur : ι)
  | clearTail (cur : ι)
  /-- About to unlock. -/
  | taken (cur : Option ι)
  /-- `notify_all`: the load of `m_head`. -/
  | takeHead
  | dropTail (curHead : Option ι)
  | dropHead (curHead : Option ι)
  /-- About to unlock. -/
  | emptied (curHead : Option ι)
deriving DecidableEq

/-- The caller has the spinlock. -/
def Pc.inside {ι : Type} : Pc ι → Bool
  | .exchange _ | .load _ => false
  | _ => true

/-- The first access behind the spinlock. -/
def Op.first {ι : Type} : Op → Pc ι
  | .registerCv => .readTail
  | .notifyOne => .readHead
  | .notifyAll => .takeHead

structure State (ι κ ν : Type) where
  sync : Sync.State ι κ ν
  /-- `lock_` of the spinlock of a condition variable. -/
  lock : κ → Bool
  pos : Caller ι ν → Option (κ × Pc ι)

inductive Label (ι κ ν : Type)
  /-- A step outside of the sections. -/
  | sync (a : Sync.Label ι κ ν)
  /-- The first line of `register_cv`. -/
  | registerCv (i : ι)
  | notifyOne (m : ν) (k : κ)
  | notifyAll (m : ν) (k : κ)
  /-- The next access of a caller. -/
  | act (x : Caller ι ν)

variable {ι κ ν : Type} [DecidableEq ι] [DecidableEq κ] [DecidableEq ν]

/-- A memory access in a section of `k`, and the next position. -/
def access (s : Sync.State ι κ ν) (k : κ) : Caller ι ν → Pc ι → Option (Sync.State ι κ ν × Pc ι)
  | .awaiter _, .readTail => some (s, if s.cvTail k = none then .storeTail else .loadTail)
  | .awaiter i, .storeTail =>
    some ({ s with cvTail := Function.update s.cvTail k (some i) }, .storeHead)
  | .awaiter i, .storeHead =>
    some ({ s with cvHead := Function.update s.cvHead k (some i) }, .linked)
  | .awaiter _, .loadTail => (s.cvTail k).map fun t => (s, .storeNext t)
  | .awaiter i, .storeNext t => some (s.setNext t (some i), .moveTail)
  | .awaiter i, .moveTail =>
    some ({ s with cvTail := Function.update s.cvTail k (some i) }, .linked)
  | .notifier _, .readHead => some (s, (s.cvHead k).elim (.taken none) .loadHead)
  | .notifier _, .loadHead cur => (s.cvHead k).map fun a => (s, .readNext cur a)
  | .notifier _, .readNext cur a => some (s, .storeNextHead cur (s.next a))
  | .notifier _, .storeNextHead cur p =>
    some ({ s with cvHead := Function.update s.cvHead k p }, .testHead cur)
  | .notifier _, .testHead cur =>
    some (s, if s.cvHead k = none then .clearTail cur else .taken (some cur))
  | .notifier _, .clearTail cur =>
    some ({ s with cvTail := Function.update s.cvTail k none }, .taken (some cur))
  | .notifier _, .takeHead => some (s, .dropTail (s.cvHead k))
  | .notifier _, .dropTail cur =>
    some ({ s with cvTail := Function.update s.cvTail k none }, .dropHead cur)
  | .notifier _, .dropHead cur =>
    some ({ s with cvHead := Function.update s.cvHead k none }, .emptied cur)
  | _, _ => none

/-- Where the awaiters are when a section of `k` has ended. -/
def unlock (s : Sync.State ι κ ν) (k : κ) : Caller ι ν → Pc ι → Option (Sync.State ι κ ν)
  | .awaiter i, .linked => some ((s.setHold i .readResumeList).setLoc i (.parked k))
  | .notifier _, .taken cur => some (cur.elim s fun a => s.setLoc a .load)
  | .notifier m, .emptied cur => some { s with
      curHead := Function.update s.curHead m cur
      loc := fun i => if s.loc i = .parked k then .captured else s.loc i }
  | _, _ => none

def State.goto (s : State ι κ ν) (x : Caller ι ν) (k : κ) (pc : Pc ι) : State ι κ ν :=
  { s with pos := Function.update s.pos x (some (k, pc)) }

/-- The next access of a caller at a position. -/
def act (s : State ι κ ν) (x : Caller ι ν) (k : κ) (pc : Pc ι) : Option (State ι κ ν) :=
  match pc with
  | .exchange op =>
    if s.lock k then some (s.goto x k (.load op))
    else some ({ s with lock := Function.update s.lock k true }.goto x k op.first)
  | .load op => if s.lock k then some s else some (s.goto x k (.exchange op))
  | pc =>
    match unlock s.sync k x pc with
    | some y => some {
        sync := y
        lock := Function.update s.lock k false
        pos := Function.update s.pos x none }
    | none => (access s.sync k x pc).map fun r => { s with sync := r.1 }.goto x k r.2

/-- The steps of `Sync` that are not taken apart. -/
def outside (s : Sync.State ι κ ν) : Sync.Label ι κ ν → Bool
  | .registerCv _ | .notifyOne _ | .notifyAll .. => false
  | .reuse i _ => s.hold i ≠ .registerCv
  | _ => true

def step (s : State ι κ ν) : Label ι κ ν → Option (State ι κ ν)
  | .sync a => if outside s.sync a then (Sync.step s.sync a).map fun y => { s with sync := y }
    else none
  | .registerCv i =>
    match s.sync.hold i, s.sync.kind i with
    | .registerCv, .cvAwaiter k _ =>
      if (s.pos (.awaiter i)).isNone then
        some ({ s with sync := s.sync.setNext i none }.goto (.awaiter i) k (.exchange .registerCv))
      else none
    | _, _ => none
  | .notifyOne m k =>
    if (s.pos (.notifier m)).isNone ∧ s.sync.curHead m = none then
      some (s.goto (.notifier m) k (.exchange .notifyOne))
    else none
  | .notifyAll m k =>
    if (s.pos (.notifier m)).isNone ∧ s.sync.curHead m = none then
      some (s.goto (.notifier m) k (.exchange .notifyAll))
    else none
  | .act x => (s.pos x).bind fun p => act s x p.1 p.2

variable {s s' : State ι κ ν} {x : Caller ι ν} {k : κ} {pc : Pc ι} {a : Label ι κ ν}

/-- What the next access does, one case for each kind. -/
inductive ActCase (s : State ι κ ν) (x : Caller ι ν) (k : κ) : Pc ι → State ι κ ν → Prop
  | busy {op : Op} (hlock : s.lock k = true) : ActCase s x k (.exchange op) (s.goto x k (.load op))
  | enter {op : Op} (hlock : s.lock k = false) : ActCase s x k (.exchange op)
      ({ s with lock := Function.update s.lock k true }.goto x k op.first)
  | spin {op : Op} (hlock : s.lock k = true) : ActCase s x k (.load op) s
  | retry {op : Op} (hlock : s.lock k = false) :
    ActCase s x k (.load op) (s.goto x k (.exchange op))
  | access {pc pc' : Pc ι} {y : Sync.State ι κ ν} (hin : pc.inside = true)
      (haccess : access s.sync k x pc = some (y, pc')) :
    ActCase s x k pc ({ s with sync := y }.goto x k pc')
  | unlock {pc : Pc ι} {y : Sync.State ι κ ν} (hin : pc.inside = true)
      (hunlock : unlock s.sync k x pc = some y) : ActCase s x k pc {
        sync := y
        lock := Function.update s.lock k false
        pos := Function.update s.pos x none }

theorem act_inside (hin : pc.inside = true) : act s x k pc =
    match unlock s.sync k x pc with
    | some y => some {
        sync := y
        lock := Function.update s.lock k false
        pos := Function.update s.pos x none }
    | none => (access s.sync k x pc).map fun r => { s with sync := r.1 }.goto x k r.2 := by
  cases pc with
  | exchange op => cases hin
  | load op => cases hin
  | _ => rfl

theorem act_cases (hs : act s x k pc = some s') : ActCase s x k pc s' := by
  cases hin : pc.inside with
  | true =>
    rw [act_inside hin] at hs
    split at hs
    · next y hunlock =>
      cases hs
      exact .unlock hin hunlock
    · obtain ⟨⟨y, pc'⟩, haccess, rfl⟩ := Option.map_eq_some_iff.mp hs
      exact .access hin haccess
  | false =>
    cases pc with
    | exchange op =>
      unfold act at hs
      split_ifs at hs with hlock
      · cases hs
        exact .busy hlock
      · cases hs
        exact .enter (Bool.not_eq_true _ ▸ hlock)
    | load op =>
      unfold act at hs
      split_ifs at hs with hlock
      · cases hs
        exact .spin hlock
      · cases hs
        exact .retry (Bool.not_eq_true _ ▸ hlock)
    | _ => cases hin

inductive StepCase (s : State ι κ ν) : Label ι κ ν → State ι κ ν → Prop
  | sync {a : Sync.Label ι κ ν} {y : Sync.State ι κ ν} (houtside : outside s.sync a = true)
      (hsync : Sync.step s.sync a = some y) : StepCase s (.sync a) { s with sync := y }
  | registerCv {i : ι} {k : κ} {hasCond : Bool} (hhold : s.sync.hold i = .registerCv)
      (hkind : s.sync.kind i = .cvAwaiter k hasCond) (hpos : s.pos (.awaiter i) = none) :
    StepCase s (.registerCv i)
      ({ s with sync := s.sync.setNext i none }.goto (.awaiter i) k (.exchange .registerCv))
  | notifyOne {m : ν} {k : κ} (hpos : s.pos (.notifier m) = none)
      (hcur : s.sync.curHead m = none) :
    StepCase s (.notifyOne m k) (s.goto (.notifier m) k (.exchange .notifyOne))
  | notifyAll {m : ν} {k : κ} (hpos : s.pos (.notifier m) = none)
      (hcur : s.sync.curHead m = none) :
    StepCase s (.notifyAll m k) (s.goto (.notifier m) k (.exchange .notifyAll))
  | act {x : Caller ι ν} {k : κ} {pc : Pc ι} {s' : State ι κ ν} (hpos : s.pos x = some (k, pc))
      (hact : ActCase s x k pc s') : StepCase s (.act x) s'

theorem step_cases (hs : step s a = some s') : StepCase s a s' := by
  cases a with
  | sync a =>
    obtain ⟨houtside, hs⟩ := Option.ite_none_right_eq_some.mp hs
    obtain ⟨y, hsync, rfl⟩ := Option.map_eq_some_iff.mp hs
    exact .sync houtside hsync
  | registerCv i =>
    simp only [step] at hs
    split at hs
    · next k hasCond hhold hkind =>
      obtain ⟨hpos, ⟨⟩⟩ := Option.ite_none_right_eq_some.mp hs
      exact .registerCv hhold hkind (Option.isNone_iff_eq_none.mp hpos)
    · cases hs
  | notifyOne m k =>
    obtain ⟨⟨hpos, hcur⟩, ⟨⟩⟩ := Option.ite_none_right_eq_some.mp hs
    exact .notifyOne (Option.isNone_iff_eq_none.mp hpos) hcur
  | notifyAll m k =>
    obtain ⟨⟨hpos, hcur⟩, ⟨⟩⟩ := Option.ite_none_right_eq_some.mp hs
    exact .notifyAll (Option.isNone_iff_eq_none.mp hpos) hcur
  | act x =>
    obtain ⟨⟨k, pc⟩, hpos, hact⟩ := Option.bind_eq_some_iff.mp hs
    exact .act hpos (act_cases hact)

/-- New condition variables, and nobody in a section. -/
structure Init (s : State ι κ ν) : Prop where
  sync : Sync.Init s.sync
  lock : ∀ k, s.lock k = false
  pos : ∀ x, s.pos x = none

variable (ι κ ν) in
def machine : Machine (State ι κ ν) (Label ι κ ν) where
  init := Init
  step := step

end SheepCoro.Spin
