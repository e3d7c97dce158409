import SheepCoro.Channel.Fifo
import Mathlib.Data.Fintype.Basic

/-!
# Closing a channel

`close` stores `part_close` and calls `notify_all` on the two condition
variables, all of it without the mutex.  A waiter evaluates its predicate and
puts itself on the list of the condition variable in two steps.  When
`notify_all` comes between them, the waiter has seen an open channel and is
not on the list yet: it registers behind the last notification and nobody
wakes it (`close_strands_receiver`).

This is the only way to be left behind.  In a run where no waiter stands
between its predicate and its registration at the critical section of
`notify_all`, a condition variable is clear from that section on, since every
later predicate sees the channel closed.
-/

namespace SheepCoro.Channel

open Lib

variable {ι T : Type} [DecidableEq ι]

/-- A waiter that was woken has not got the lock back yet. -/
def InFlight (s : State ι T) (j : ι) : Prop :=
  (∃ k hasCond, s.sync.kind j = .cvAwaiter k hasCond) ∧
    s.sync.loc j ≠ .none ∧ ∀ k, s.sync.loc j ≠ .parked k

/-- When `close` has returned, the mutex is unlocked and nobody is in flight,
then nobody is parked. -/
def NobodyStranded (s : State ι T) : Prop :=
  s.closeReturned = true → s.sync.state = .nolocked → (∀ j, ¬ InFlight s j) →
    ∀ k, s.sync.cvHead k = none ∧ ∀ j, s.sync.loc j ≠ .parked k

/-- The condition variable whose `notify_all` is the next step. -/
def Pc.notifies : Pc T → Option Cv
  | .closeProducer => some .producer
  | .closeConsumer => some .consumer
  | _ => none

/-- At the critical section of a `notify_all` of `close` no waiter has found
its predicate false and is not on the list yet. -/
def ClosesBetweenWaits (s : State ι T) : Label ι T → Prop
  | .client i => ∀ k ∈ (s.pc i).notifies, ∀ j, ¬ Sync.Registering s.sync k j
  | _ => True

/-! ## A closed channel -/

/-- The channel is closed and the condition variable is clear. -/
structure Sealed (k : Cv) (s : State ι T) : Prop where
  closed : s.partClosed = true
  clear : Sync.Clear k s.sync

section Steps

variable {cap : Nat} {s s' : State ι T} {a : Label ι T} {k : Cv}

omit [DecidableEq ι] in
/-- Every predicate holds on a closed channel. -/
theorem cond_of_closed {i : ι} {value : Bool} (h : s.partClosed = true)
    (hcond : s.cond cap i = some value) : value = true := by
  unfold State.cond at hcond
  split at hcond
  · simpa [h] using hcond.symm
  · simpa [h] using hcond.symm
  · cases hcond

theorem Sealed.step (h : Sealed k s) (hs : step cap s a = some s') : Sealed k s' := by
  refine ⟨partClosed_step h.closed hs, ?_⟩
  rcases (step_frame hs).sync with heq | ⟨l, hoffers, -, hl⟩
  · rw [heq]
    exact h.clear
  · refine h.clear.step hl (fun i k' heq => ?_) fun i heq => ?_
    · subst heq
      cases hoffers
    · subst heq
      cases cond_of_closed h.closed hoffers

/-! ## Where `close` is -/

/-- What a call of `close` has brought about at a position. -/
def CloseOk (s : State ι T) : Pc T → Prop
  | .closeProducer => s.partClosed = true
  | .closeProducerLoop | .closeConsumer => Sealed .producer s
  | .closeConsumerLoop => Sealed .producer s ∧ Sealed .consumer s
  | _ => True

omit [DecidableEq ι] in
theorem CloseOk.mono {p : Pc T} (h : CloseOk s p)
    (hclosed : s.partClosed = true → s'.partClosed = true)
    (hsealed : ∀ k, Sealed k s → Sealed k s') : CloseOk s' p := by
  cases p with
  | closeProducer => exact hclosed h
  | closeProducerLoop | closeConsumer => exact hsealed _ h
  | closeConsumerLoop => exact ⟨hsealed _ h.1, hsealed _ h.2⟩
  | idle | sendStart | sendLock | sendWait | sendStore | sendNotify | recvStart | recvLock
  | recvWait | recvComplete | recvTake | recvNotify | unlock | closeStore => trivial

structure CloseInv (s : State ι T) : Prop where
  pcs : ∀ i, CloseOk s (s.pc i)
  returned : s.closeReturned = true → Sealed .producer s ∧ Sealed .consumer s

/-- Only one coroutine moves, and it has done what its new position says. -/
theorem CloseInv.move {i : ι} {p : Pc T} (h : CloseInv s) (hs : Channel.step cap s a = some s')
    (hpc : s'.pc = Function.update s.pc i p) (hp : CloseOk s' p)
    (hret : s'.closeReturned = true →
      s.closeReturned = true ∨ (Sealed .producer s' ∧ Sealed .consumer s')) : CloseInv s' := by
  refine ⟨fun j => ?_, fun hr => ?_⟩
  · rw [hpc]
    by_cases hj : j = i
    · subst hj
      rw [Function.update_self]
      exact hp
    · rw [Function.update_of_ne hj]
      exact (h.pcs j).mono (fun hc => partClosed_step hc hs) fun k hk => hk.step hs
  · rcases hret hr with hold | hsealed
    · obtain ⟨hprod, hcons⟩ := h.returned hold
      exact ⟨hprod.step hs, hcons.step hs⟩
    · exact hsealed

/-- Nobody's position changes. -/
theorem CloseInv.stay (h : CloseInv s) (hs : Channel.step cap s a = some s')
    (hpc : s'.pc = s.pc) (hret : s'.closeReturned = s.closeReturned) : CloseInv s' := by
  refine ⟨fun j => ?_, fun hr => ?_⟩
  · rw [hpc]
    exact (h.pcs j).mono (fun hc => partClosed_step hc hs) fun k hk => hk.step hs
  · obtain ⟨hprod, hcons⟩ := h.returned (hret ▸ hr)
    exact ⟨hprod.step hs, hcons.step hs⟩

/-- A notification of `close` that meets no waiter on the way to the list. -/
theorem Sealed.of_notifyAll {i : ι} {p : Pc T} (h : s.partClosed = true)
    (hguard : ∀ j, ¬ Sync.Registering s.sync k j)
    (hs : (s.onSync (.notifyAll i k)).map (fun u => u.goto i p) = some s') : Sealed k s' := by
  obtain ⟨u, hu, rfl⟩ := Option.map_eq_some_iff.mp hs
  obtain ⟨y, hy, rfl⟩ := onSync_eq_some.mp hu
  obtain ⟨_, ⟨⟩⟩ := Option.ite_none_right_eq_some.mp hy
  exact ⟨h, Sync.Clear.of_notifyAll hguard⟩

theorem CloseInv.client {i : ι} (h : CloseInv s) (hguard : ClosesBetweenWaits s (.client i))
    (hs : Channel.step cap s (.client i) = some s') : CloseInv s' := by
  have hok := h.pcs i
  -- A step of the mutex or of a condition variable, and the call moves on.
  have hmap : ∀ {l p}, (s.onSync l).map (fun u => u.goto i p) = some s' → CloseOk s' p →
      CloseInv s' := by
    intro l p hu hp
    obtain ⟨u, hu', rfl⟩ := Option.map_eq_some_iff.mp hu
    obtain ⟨y, _, rfl⟩ := onSync_eq_some.mp hu'
    exact h.move hs rfl hp fun hr => .inl hr
  have hnext : s.onSync (.notifyNext i) = some s' → CloseInv s' := by
    intro hu
    obtain ⟨y, _, rfl⟩ := onSync_eq_some.mp hu
    exact h.stay hs rfl rfl
  have hs0 : clientStep cap s i (s.pc i) = some s' := hs
  cases hp : s.pc i with
  | idle =>
    rw [hp] at hs0
    cases hs0
  | sendStart v =>
    simp only [clientStep, hp] at hs0
    split_ifs at hs0
    · cases hs0
      exact h.move (p := .idle) hs rfl trivial fun hr => .inl hr
    · exact hmap hs0 trivial
  | recvStart =>
    simp only [clientStep, hp] at hs0
    split_ifs at hs0
    · cases hs0
      exact h.move (p := .idle) hs rfl trivial fun hr => .inl hr
    · exact hmap hs0 trivial
  | sendLock | sendNotify | recvLock | recvNotify | unlock =>
    simp only [clientStep, hp] at hs0
    exact hmap hs0 trivial
  | sendWait v =>
    simp only [clientStep, hp] at hs0
    split_ifs at hs0 <;> cases hs0
    · exact h.move (p := .unlock) hs rfl trivial fun hr => .inl hr
    · exact h.move (p := .sendStore v) hs rfl trivial fun hr => .inl hr
  | recvWait =>
    simp only [clientStep, hp] at hs0
    split_ifs at hs0 <;> cases hs0
    · exact h.move (p := .recvComplete) hs rfl trivial fun hr => .inl hr
    · exact h.move (p := .recvTake) hs rfl trivial fun hr => .inl hr
  | sendStore v =>
    simp only [clientStep, hp, Option.some.injEq] at hs0
    subst hs0
    exact h.move (p := .sendNotify) hs rfl trivial fun hr => .inl hr
  | recvComplete =>
    simp only [clientStep, hp, Option.some.injEq] at hs0
    subst hs0
    exact h.move (p := .unlock) hs rfl trivial fun hr => .inl hr
  | recvTake =>
    simp only [clientStep, hp, Option.some.injEq] at hs0
    subst hs0
    exact h.move (p := .recvNotify) hs rfl trivial fun hr => .inl hr
  | closeStore =>
    simp only [clientStep, hp, Option.some.injEq] at hs0
    subst hs0
    exact h.move (p := .closeProducer) hs rfl rfl fun hr => .inl hr
  | closeProducer =>
    simp only [clientStep, hp] at hs0
    rw [hp] at hok
    have hnone := hguard .producer (by simp [hp, Pc.notifies])
    exact hmap hs0 (Sealed.of_notifyAll hok hnone hs0)
  | closeProducerLoop =>
    simp only [clientStep, hp] at hs0
    rw [hp] at hok
    split_ifs at hs0
    · cases hs0
      exact h.move (p := .closeConsumer) hs rfl (Sealed.step hok hs) fun hr => .inl hr
    · exact hnext hs0
  | closeConsumer =>
    simp only [clientStep, hp] at hs0
    rw [hp] at hok
    have hnone := hguard .consumer (by simp [hp, Pc.notifies])
    exact hmap hs0 ⟨Sealed.step hok hs, Sealed.of_notifyAll hok.closed hnone hs0⟩
  | closeConsumerLoop =>
    simp only [clientStep, hp] at hs0
    rw [hp] at hok
    split_ifs at hs0
    · cases hs0
      exact h.move (p := .idle) hs rfl trivial fun _ => .inr ⟨hok.1.step hs, hok.2.step hs⟩
    · exact hnext hs0

theorem CloseInv.step (h : CloseInv s) (hguard : ClosesBetweenWaits s a)
    (hs : Channel.step cap s a = some s') : CloseInv s' := by
  have hon : ∀ {l}, s.onSync l = some s' → CloseInv s' := by
    intro l hu
    obtain ⟨y, _, rfl⟩ := onSync_eq_some.mp hu
    exact h.stay hs rfl rfl
  cases a with
  | send i v =>
    obtain ⟨_, ⟨⟩⟩ := Option.ite_none_right_eq_some.mp hs
    exact h.move (p := .sendStart v) hs rfl trivial fun hr => .inl hr
  | recv i =>
    obtain ⟨_, ⟨⟩⟩ := Option.ite_none_right_eq_some.mp hs
    exact h.move (p := .recvStart) hs rfl trivial fun hr => .inl hr
  | close i =>
    obtain ⟨_, ⟨⟩⟩ := Option.ite_none_right_eq_some.mp hs
    exact h.move (p := .closeStore) hs rfl trivial fun hr => .inl hr
  | client i => exact h.client hguard hs
  | eval i =>
    obtain ⟨value, _, hu⟩ := Option.bind_eq_some_iff.mp hs
    exact hon hu
  | registerLock | enter | registerCv | unlock | reuse => exact hon hs

end Steps

theorem closeInv_of_reachable {cap : Nat} {s : State ι T}
    (h : (machine ι T cap).ReachableUnder ClosesBetweenWaits s) : CloseInv s := by
  refine h.invariant (I := CloseInv) (fun s h0 => ⟨fun i => ?_, fun hr => ?_⟩) ?_
  · rw [Init.pc h0 i]
    trivial
  · rw [Init.closeReturned h0] at hr
    cases hr
  · intro s a s' _ hinv hguard hs
    exact hinv.step hguard hs

/-- A channel of any capacity, in every run in which no `notify_all` of
`close` comes between the predicate of a waiter and its registration. -/
theorem close_strands_nobody (cap : Nat) (s : State ι T)
    (h : (machine ι T cap).ReachableUnder ClosesBetweenWaits s) : NobodyStranded s := by
  intro hret _ _ k
  obtain ⟨hprod, hcons⟩ := (closeInv_of_reachable h).returned hret
  have hclear : Sync.Clear k s.sync := by
    cases k with
    | producer => exact hprod.clear
    | consumer => exact hcons.clear
  exact ⟨hclear.cvHead (sync_good h.reachable), hclear.parked⟩

instance [Fintype ι] (k : Cv) (s : State ι T) (j : ι) :
    Decidable (Sync.Registering s.sync k j) :=
  inferInstanceAs (Decidable (_ ∧ ∃ _, _))

instance [Fintype ι] (s : State ι T) : DecidablePred (ClosesBetweenWaits s)
  | .client i =>
    inferInstanceAs (Decidable (∀ k ∈ (s.pc i).notifies, ∀ j, ¬ Sync.Registering s.sync k j))
  | .send .. | .recv _ | .close _ | .registerLock .. | .enter _ | .eval _ | .registerCv _
  | .unlock _ | .reuse .. => isTrue trivial

/-- A receiver is parked, `close` wakes it, and it gives up. -/
theorem close_strands_nobody_woken : ∃ s : State (Fin 2) Nat,
    (machine (Fin 2) Nat 2).ReachableUnder ClosesBetweenWaits s ∧ s.log = [.recvNull] ∧
    s.closeReturned = true ∧ s.sync.cvHead .consumer = none := by
  have hrun : ((machine (Fin 2) Nat 2).runUnder ClosesBetweenWaits
      (newState (.masked 0 0 fun _ => 0))
      [.recv 0, .client 0, .registerLock 0 false, .registerLock 0 false, .enter 0, .client 0,
        .eval 0, .registerCv 0, .unlock 0, .unlock 0,
        .close 1, .client 1, .client 1, .client 1, .client 1, .client 1, .client 1,
        .registerLock 0 false, .registerLock 0 false, .eval 0, .enter 0, .client 0, .client 0,
        .client 0, .unlock 0, .unlock 0]).map (fun s =>
      decide (s.log = [.recvNull] ∧ s.closeReturned = true ∧ s.sync.state = .nolocked ∧
        ∀ j, s.sync.loc j = .none)) = some true := by
    decide
  have hinit : (machine (Fin 2) Nat 2).init (newState (.masked 0 0 fun _ => 0)) :=
    init_newState ⟨⟨1, by decide, rfl⟩, rfl, rfl⟩
  obtain ⟨s, hs, htest⟩ := Machine.reachableUnder_of_run hinit hrun
  obtain ⟨hlog, hret, hfree, hloc⟩ := of_decide_eq_true htest
  have hquiet : ∀ j, ¬ InFlight s j := fun j hj => hj.2.1 (hloc j)
  exact ⟨s, hs, hlog, hret, (close_strands_nobody 2 s hs hret hfree hquiet .consumer).1⟩

/-- A receiver finds the channel open and empty; `close` runs from its first
step to its last; the receiver registers and unlocks.  It is parked on
`m_consumer_cv` for good. -/
theorem close_strands_receiver : ∃ s : State (Fin 2) Nat,
    (machine (Fin 2) Nat 2).Reachable s ∧ ¬ NobodyStranded s := by
  have hrun : ((machine (Fin 2) Nat 2).run (newState (.masked 0 0 fun _ => 0))
      [.recv 0, .client 0, .registerLock 0 false, .registerLock 0 false, .enter 0, .client 0,
        .eval 0,
        .close 1, .client 1, .client 1, .client 1, .client 1, .client 1,
        .registerCv 0, .unlock 0, .unlock 0]).map (fun s =>
      decide (s.closeReturned = true ∧ s.sync.state = .nolocked ∧
        s.sync.loc 0 = .parked .consumer ∧ s.sync.loc 1 = .none)) = some true := by
    decide
  have hinit : (machine (Fin 2) Nat 2).init (newState (.masked 0 0 fun _ => 0)) :=
    init_newState ⟨⟨1, by decide, rfl⟩, rfl, rfl⟩
  obtain ⟨s, hs, htest⟩ := Machine.reachable_of_run hinit hrun
  obtain ⟨hret, hfree, hparked, hnone⟩ := of_decide_eq_true htest
  refine ⟨s, hs, fun hnobody => ?_⟩
  have hquiet : ∀ j, ¬ InFlight s j := by
    intro j hj
    match j with
    | 0 => exact hj.2.2 _ hparked
    | 1 => exact hj.2.1 hnone
  exact (hnobody hret hfree hquiet .consumer).2 0 hparked

end SheepCoro.Channel
