import SheepCoro.Sync.Frame
import SheepCoro.Channel.Buffer

/-!
# Channels

`include/coro/comp/channel.hpp` over the mutex and the two condition
variables of `channel_base`.  Any number of coroutines (`ι`) call `send`,
`recv` and `close`, in any order and any number of times.  The machine is
that of `SheepCoro.Sync` with a program counter for every coroutine, the
buffer and `m_close_state`.

`send` and `recv` look at `m_close_state` before they take the lock, in the
predicate of their wait, and once more after it.  `close` stores it without
the lock, and `recv` stores it with the lock when it has found the channel
empty and closed.

`log` is the history of the calls.  A `send` that returns `true` and a
`recv` that returns a value are logged where they touch the buffer, the
other outcomes where they are decided.
-/

namespace SheepCoro.Channel

open Lib

/-- `m_producer_cv` and `m_consumer_cv`. -/
inductive Cv
  | producer
  | consumer
deriving DecidableEq

/-- Where a coroutine is in a call. -/
inductive Pc (T : Type)
  | idle
  /-- About to load `m_close_state`. -/
  | sendStart (v : T)
  /-- In `co_await m_mtx.lock_guard()`. -/
  | sendLock (v : T)
  /-- In `co_await m_producer_cv.wait(...)`, or right behind it. -/
  | sendWait (v : T)
  /-- About to store the value. -/
  | sendStore (v : T)
  | sendNotify
  | recvStart
  | recvLock
  | recvWait
  /-- About to store `complete_close`. -/
  | recvComplete
  /-- About to take a value. -/
  | recvTake
  | recvNotify
  /-- About to destroy the `lock_guard`. -/
  | unlock
  /-- About to store `part_close`. -/
  | closeStore
  | closeProducer
  | closeProducerLoop
  | closeConsumer
  | closeConsumerLoop
deriving DecidableEq

def Pc.isIdle {T : Type} : Pc T → Bool
  | .idle => true
  | _ => false

/-- The outcome of a `send` or of a `recv`. -/
inductive Event (T : Type)
  | sendTrue (v : T)
  | sendFalse
  | recvSome (v : T)
  | recvNull
deriving DecidableEq

structure State (ι T : Type) where
  sync : Sync.State ι Cv ι
  buffer : Buffer T
  /-- `m_close_state`. -/
  closeState : Nat
  pc : ι → Pc T
  /-- The outcomes so far, the oldest first. -/
  log : List (Event T)
  /-- Some `close` call has returned. -/
  closeReturned : Bool

section Machine

variable {ι T : Type} [DecidableEq ι]

def completeClose : Nat := 0

def partClose : Nat := 1

def noClose : Nat := 2

/-- `complete_closed_atomic`. -/
def State.completeClosed (s : State ι T) : Bool :=
  decide (s.closeState ≤ completeClose)

/-- `part_closed` and `part_closed_atomic`. -/
def State.partClosed (s : State ι T) : Bool :=
  decide (s.closeState ≤ partClose)

def State.goto (s : State ι T) (i : ι) (pc : Pc T) : State ι T :=
  { s with pc := Function.update s.pc i pc }

def State.record (s : State ι T) (e : Event T) : State ι T :=
  { s with log := s.log ++ [e] }

/-- A step of the mutex or of a condition variable. -/
def State.onSync (s : State ι T) (l : Sync.Label ι Cv ι) : Option (State ι T) :=
  (Sync.step s.sync l).map fun y => { s with sync := y }

/-- The predicate that the awaiter of `i` was given. -/
def State.cond (cap : Nat) (s : State ι T) (i : ι) : Option Bool :=
  match s.pc i with
  | .sendWait _ => some (!s.buffer.full cap || s.partClosed)
  | .recvWait => some (!s.buffer.empty || s.partClosed)
  | _ => none

/-- The next step of a call, outside of the awaiters. -/
def clientStep (cap : Nat) (s : State ι T) (i : ι) : Pc T → Option (State ι T)
  | .idle => none
  | .sendStart v =>
    if s.partClosed then some ((s.record .sendFalse).goto i .idle)
    else (s.onSync (.lock i)).map (·.goto i (.sendLock v))
  | .sendLock v => (s.onSync (.wait i .producer true)).map (·.goto i (.sendWait v))
  | .sendWait v =>
    if s.sync.hold i = .inside then
      if s.partClosed then some ((s.record .sendFalse).goto i .unlock)
      else some (s.goto i (.sendStore v))
    else none
  | .sendStore v =>
    some (({ s with buffer := s.buffer.put cap v }.record (.sendTrue v)).goto i .sendNotify)
  | .sendNotify => (s.onSync (.notifyOne .consumer)).map (·.goto i .unlock)
  | .recvStart =>
    if s.completeClosed then some ((s.record .recvNull).goto i .idle)
    else (s.onSync (.lock i)).map (·.goto i .recvLock)
  | .recvLock => (s.onSync (.wait i .consumer true)).map (·.goto i .recvWait)
  | .recvWait =>
    if s.sync.hold i = .inside then
      if s.buffer.empty && s.partClosed then some ((s.record .recvNull).goto i .recvComplete)
      else some (s.goto i .recvTake)
    else none
  | .recvComplete => some ({ s with closeState := completeClose }.goto i .unlock)
  | .recvTake =>
    let e := match s.buffer.front cap with
      | some v => Event.recvSome v
      | none => Event.recvNull
    some (({ s with buffer := s.buffer.pop cap }.record e).goto i .recvNotify)
  | .recvNotify => (s.onSync (.notifyOne .producer)).map (·.goto i .unlock)
  | .unlock => (s.onSync (.callUnlock i)).map (·.goto i .idle)
  | .closeStore => some ({ s with closeState := partClose }.goto i .closeProducer)
  | .closeProducer => (s.onSync (.notifyAll i .producer)).map (·.goto i .closeProducerLoop)
  | .closeProducerLoop =>
    if s.sync.curHead i = none then some (s.goto i .closeConsumer) else s.onSync (.notifyNext i)
  | .closeConsumer => (s.onSync (.notifyAll i .consumer)).map (·.goto i .closeConsumerLoop)
  | .closeConsumerLoop =>
    if s.sync.curHead i = none then some ({ s with closeReturned := true }.goto i .idle)
    else s.onSync (.notifyNext i)

inductive Label (ι T : Type)
  | send (i : ι) (v : T)
  | recv (i : ι)
  | close (i : ι)
  /-- The call of `i` moves on. -/
  | client (i : ι)
  /-- A step of the awaiter of `i`, or of the `unlock` that `i` is in. -/
  | registerLock (i : ι) (spurious : Bool)
  | enter (i : ι)
  | eval (i : ι)
  | registerCv (i : ι)
  | unlock (i : ι)
  | reuse (i : ι) (p : Option ι)

/-- The coroutine is not in a call, and its last `unlock` has returned. -/
def State.canCall (s : State ι T) (i : ι) : Prop :=
  (s.pc i).isIdle = true ∧ s.sync.loc i = .none ∧ s.sync.hold i = .none

instance (s : State ι T) (i : ι) : Decidable (s.canCall i) :=
  inferInstanceAs (Decidable (_ ∧ _ ∧ _))

def step (cap : Nat) (s : State ι T) : Label ι T → Option (State ι T)
  | .send i v => if s.canCall i then some (s.goto i (.sendStart v)) else none
  | .recv i => if s.canCall i then some (s.goto i .recvStart) else none
  | .close i => if s.canCall i then some (s.goto i .closeStore) else none
  | .client i => clientStep cap s i (s.pc i)
  | .registerLock i spurious => s.onSync (.registerLock i spurious)
  | .enter i => s.onSync (.enter i)
  | .eval i => (s.cond cap i).bind fun value => s.onSync (.eval i value)
  | .registerCv i => s.onSync (.registerCv i)
  | .unlock i => s.onSync (.unlock i)
  | .reuse i p => s.onSync (.reuse i p)

/-- A new channel. -/
structure Init (cap : Nat) (s : State ι T) : Prop where
  sync : Sync.Init s.sync
  buffer : s.buffer.Initial cap
  closeState : s.closeState = noClose
  pc : ∀ i, s.pc i = .idle
  log : s.log = []
  closeReturned : s.closeReturned = false

/-- The data members as the constructors leave them. -/
def newState (buffer : Buffer T) : State ι T where
  sync :=
    { state := .nolocked
      resumeList := none
      next := fun _ => none
      cvHead := fun _ => none
      cvTail := fun _ => none
      curHead := fun _ => none
      loc := fun _ => .none
      hold := fun _ => .none
      kind := fun _ => .mutexAwaiter }
  buffer := buffer
  closeState := noClose
  pc := fun _ => .idle
  log := []
  closeReturned := false

omit [DecidableEq ι] in
theorem init_newState {cap : Nat} {buffer : Buffer T} (h : buffer.Initial cap) :
    Init cap (newState buffer : State ι T) where
  sync := ⟨rfl, rfl, fun _ => rfl, fun _ => rfl, fun _ => rfl, fun _ => rfl, fun _ => rfl⟩
  buffer := h
  closeState := rfl
  pc := fun _ => rfl
  log := rfl
  closeReturned := rfl

variable (ι T) in
def machine (cap : Nat) : Machine (State ι T) (Label ι T) where
  init := Init cap
  step := step cap

theorem onSync_eq_some {s s' : State ι T} {l : Sync.Label ι Cv ι} :
    s.onSync l = some s' ↔ ∃ y, Sync.step s.sync l = some y ∧ { s with sync := y } = s' :=
  Option.map_eq_some_iff

/-- A channel waits with a predicate, and what a predicate says is read off
the channel. -/
def Offers (cap : Nat) (s : State ι T) : Sync.Label ι Cv ι → Prop
  | .wait _ _ hasCond => hasCond = true
  | .eval i value => s.cond cap i = some value
  | _ => True

/-- The coroutine whose call takes the step. -/
def Label.caller : Label ι T → Option ι
  | .send i _ | .recv i | .close i | .client i => some i
  | _ => none

/-- A step of a channel is a step of its mutex and condition variables or
does not touch them, it leaves the close state alone or closes the channel,
it only adds to the log, and only the call that takes it moves on. -/
structure Frame (cap : Nat) (s : State ι T) (a : Label ι T) (s' : State ι T) : Prop where
  sync : s'.sync = s.sync ∨ ∃ l, Offers cap s l ∧ (∀ i, l.caller = some i → a = .client i) ∧
    Sync.step s.sync l = some s'.sync
  close : s'.closeState = s.closeState ∨ s'.partClosed = true
  log : s.log <+: s'.log
  pc : ∀ i, a.caller ≠ some i → s'.pc i = s.pc i

theorem step_frame {cap : Nat} {s s' : State ι T} {a : Label ι T}
    (h : step cap s a = some s') : Frame cap s a s' := by
  have hgoto : ∀ {u : State ι T} {i p}, (a.caller = some i ∧ u.pc = s.pc) →
      ∀ j, a.caller ≠ some j → (u.goto i p).pc j = s.pc j := by
    rintro u i p ⟨hi, hu⟩ j hj
    have hji : j ≠ i := fun heq => hj (heq ▸ hi)
    simp only [State.goto, Function.update_of_ne hji, hu]
  have hon : ∀ {l}, s.onSync l = some s' → Offers cap s l →
      (∀ i, l.caller = some i → a = .client i) → Frame cap s a s' := by
    intro l hu hl hcaller
    obtain ⟨y, hy, rfl⟩ := onSync_eq_some.mp hu
    exact ⟨.inr ⟨l, hl, hcaller, hy⟩, .inl rfl, List.prefix_rfl, fun _ _ => rfl⟩
  have hmap : ∀ {l i p}, (s.onSync l).map (fun u => u.goto i p) = some s' → Offers cap s l →
      (∀ i, l.caller = some i → a = .client i) → a.caller = some i → Frame cap s a s' := by
    intro l i p hu hl hcaller hi
    obtain ⟨u, hu', rfl⟩ := Option.map_eq_some_iff.mp hu
    obtain ⟨y, hy, rfl⟩ := onSync_eq_some.mp hu'
    exact ⟨.inr ⟨l, hl, hcaller, hy⟩, .inl rfl, List.prefix_rfl, hgoto ⟨hi, rfl⟩⟩
  cases a with
  | send | recv | close =>
    obtain ⟨_, ⟨⟩⟩ := Option.ite_none_right_eq_some.mp h
    exact ⟨.inl rfl, .inl rfl, List.prefix_rfl, hgoto ⟨rfl, rfl⟩⟩
  | client i =>
    simp only [step] at h
    cases hp : s.pc i with
    | idle =>
      rw [hp] at h
      cases h
    | sendStart | recvStart =>
      simp only [clientStep, hp] at h
      split_ifs at h
      · cases h
        exact ⟨.inl rfl, .inl rfl, List.prefix_append .., hgoto ⟨rfl, rfl⟩⟩
      · exact hmap h trivial (by simp [Sync.Label.caller]) rfl
    | sendWait | recvWait =>
      simp only [clientStep, hp] at h
      split_ifs at h <;> cases h
      · exact ⟨.inl rfl, .inl rfl, List.prefix_append .., hgoto ⟨rfl, rfl⟩⟩
      · exact ⟨.inl rfl, .inl rfl, List.prefix_rfl, hgoto ⟨rfl, rfl⟩⟩
    | closeProducerLoop | closeConsumerLoop =>
      simp only [clientStep, hp] at h
      split_ifs at h
      · cases h
        exact ⟨.inl rfl, .inl rfl, List.prefix_rfl, hgoto ⟨rfl, rfl⟩⟩
      · exact hon h trivial (by simp [Sync.Label.caller])
    | sendStore | recvTake =>
      simp only [clientStep, hp, Option.some.injEq] at h
      subst h
      exact ⟨.inl rfl, .inl rfl, List.prefix_append .., hgoto ⟨rfl, rfl⟩⟩
    | recvComplete | closeStore =>
      simp only [clientStep, hp, Option.some.injEq] at h
      subst h
      exact ⟨.inl rfl, .inr rfl, List.prefix_rfl, hgoto ⟨rfl, rfl⟩⟩
    | sendLock | recvLock =>
      simp only [clientStep, hp] at h
      exact hmap h rfl (by simp [Sync.Label.caller]) rfl
    | sendNotify | recvNotify | unlock | closeProducer | closeConsumer =>
      simp only [clientStep, hp] at h
      exact hmap h trivial (by simp [Sync.Label.caller]) rfl
  | eval i =>
    obtain ⟨value, hvalue, hs⟩ := Option.bind_eq_some_iff.mp h
    exact hon hs hvalue (by simp [Sync.Label.caller])
  | registerLock | enter | registerCv | unlock | reuse =>
    exact hon h trivial (by simp [Sync.Label.caller])

/-- A channel that is closed stays closed. -/
theorem partClosed_step {cap : Nat} {s s' : State ι T} {a : Label ι T}
    (h : s.partClosed = true) (hs : step cap s a = some s') : s'.partClosed = true := by
  rcases (step_frame hs).close with heq | hclosed
  · unfold State.partClosed at h ⊢
    rw [heq]
    exact h
  · exact hclosed

end Machine

end SheepCoro.Channel
