import SheepCoro.Context.Outstanding
import SheepCoro.Context.Wakeup

/-!
# The batch of a peek

`poll_submit` stores the entries of one peek in `m_urc`, an array of
`kQueCap` pointers.  What it asks for is `m_num_io_running`, as an
`unsigned int`, and nothing compares this with the length of the array.

`runs_over` is a worker with one more operation in the kernel than the array
has places.  `batch_fits` is about the runs in which an operation is prepared
only while fewer than `kQueCap` are outstanding.
-/

namespace SheepCoro.Context

open Lib

/-- The second argument of `peek_batch_cqe`. -/
def State.requested (s : State) : Nat :=
  s.numIoRunning % 2 ^ 32

/-- The operations that were prepared and not retired. -/
def State.outstanding (s : State) : Nat :=
  s.numIoWaitSubmit + s.numIoRunning

/-- An operation is prepared only if the array has room for it, beside those
that are outstanding. -/
def HasRoom (cfg : Config) (s : State) : Label → Prop
  | .act .prepareIo => s.outstanding < cfg.queCap
  | _ => True

/-- The peek stays inside the array, and so do the entries that are read. -/
def Fits (cfg : Config) (s : State) : Prop :=
  (s.pc = .peek → s.requested ≤ cfg.queCap) ∧
    ∀ left num, s.pc = .handle left num → num ≤ cfg.queCap

section Steps

variable {cfg : Config} {s s' : State} {a : Label}

/-- Only `prepareIo` adds to what is outstanding. -/
theorem outstanding_step (hb : Books s) (hs : step cfg s a = some s') :
    s'.outstanding ≤ s.outstanding ∨
      a = .act .prepareIo ∧ s'.outstanding = s.outstanding + 1 := by
  have hcounted : Counted s ⟨s.outstanding, 0⟩ := rfl
  have hnext := hcounted.step hb hs
  unfold Counted at hnext
  unfold State.outstanding at hnext ⊢
  unfold Traffic.after at hnext
  split at hnext
  · right
    refine ⟨rfl, ?_⟩
    dsimp only at hnext
    omega
  · left
    dsimp only at hnext
    omega
  · left
    dsimp only at hnext
    omega

theorem outstanding_le (h : (machine cfg).ReachableUnder (HasRoom cfg) s) :
    s.outstanding ≤ cfg.queCap := by
  refine h.invariant (I := fun s => s.outstanding ≤ cfg.queCap) (fun s h0 => ?_) ?_
  · rw [show s = newState from h0]
    exact Nat.zero_le _
  · intro s a s' hr hle hroom hs
    rcases outstanding_step (books_of_reachable hr.reachable) hs with hnext | ⟨rfl, hnext⟩
    · exact Nat.le_trans hnext hle
    · rw [hnext]
      exact hroom

end Steps

/-- As long as operations are prepared only while there is room for them, the
peek asks for no more entries than the array has places. -/
theorem batch_fits (cfg : Config) (s : State)
    (h : (machine cfg).ReachableUnder (HasRoom cfg) s) : Fits cfg s := by
  have hle := outstanding_le h
  unfold State.outstanding at hle
  refine ⟨fun _ => ?_, fun left num hp => ?_⟩
  · have hmod := Nat.mod_le s.numIoRunning (2 ^ 32)
    exact Nat.le_trans hmod (by omega)
  · have hbatch := (books_of_reachable h.reachable).batch left num hp
    omega

/-! ## One operation too many -/

/-- A worker with `n` operations in the kernel, back at the test of the stop
state, after `k` more operations have completed. -/
def waiting (n k : Nat) : State :=
  { newState with
    pc := .loop
    numIoRunning := n + k
    inflight := n
    cq := k
    counter := k
    signals := k }

/-- A task comes in, prepares one operation and suspends. -/
def oneMore : List Label :=
  [.push 0, .write, .run 0, .run 0, .run 0, .act .prepareIo, .leave, .run 0, .run 0, .run 1, .run 0]

theorem waiting_more (n : Nat) :
    (machine schedulerConfig).run (waiting n 0) oneMore = some (waiting (n + 1) 0) := by
  simp [Machine.run, Machine.runUnder, machine, step, runStep, act, oneMore, waiting, newState,
    schedulerConfig, State.wakeUp, State.goto, State.inLoop, State.emptyIo, taskFlag, eventfdMax,
    wakeByCqe, cqeMask]

/-- One of the operations completes. -/
theorem waiting_complete {n k : Nat} (hk : k < 2 ^ 63) :
    (machine schedulerConfig).run (waiting (n + 1) k) [.complete, .signal] =
      some (waiting n (k + 1)) := by
  have hmin : min (k + 1) 18446744073709551615 = k + 1 := by omega
  have hsum : n + 1 + k = n + (k + 1) := by omega
  simp [Machine.run, Machine.runUnder, machine, step, waiting, newState, hmin, hsum]

theorem waiting_reachable (n : Nat) : (machine schedulerConfig).Reachable (waiting n 0) := by
  induction n with
  | zero =>
    have hnew : (machine schedulerConfig).Reachable newState := .init rfl
    exact hnew.next (a := .start) rfl
  | succ n ih => exact ih.run (waiting_more n)

theorem waiting_reachable_all {n k : Nat} (hk : k ≤ 2 ^ 63) (h : k ≤ n) :
    (machine schedulerConfig).Reachable (waiting (n - k) k) := by
  induction k with
  | zero => exact waiting_reachable n
  | succ k ih =>
    have hprev := ih (by omega) (by omega)
    have hsub : n - k = n - (k + 1) + 1 := by omega
    rw [hsub] at hprev
    exact hprev.run (waiting_complete (by omega))

/-- The round in which the worker finds the completions. -/
def toPeek : List Label :=
  [.run 0, .run 0, .run 0, .run 0, .run 0, .run 0]

/-- One more operation than `m_urc` has places is in the kernel, and all of
them complete.  The peek asks for all of them, and gets them. -/
theorem runs_over : ∃ s t, (machine schedulerConfig).Reachable s ∧ s.pc = .peek ∧
    s.requested = schedulerConfig.queCap + 1 ∧ step schedulerConfig s (.run 16385) = some t ∧
    t.pc = .handle 16385 16385 ∧ ¬ Fits schedulerConfig s := by
  have hwaiting : (machine schedulerConfig).Reachable (waiting 0 16385) :=
    waiting_reachable_all (n := 16385) (by omega) (Nat.le_refl _)
  have hrun : ((machine schedulerConfig).run (waiting 0 16385) toPeek).map (fun s =>
      decide (s.pc = .peek ∧ s.numIoRunning = 16385 ∧ s.cq = 16385 ∧ s.inLoop)) = some true := by
    decide
  obtain ⟨s, hs, htest⟩ := Option.map_eq_some_iff.mp hrun
  obtain ⟨hp, hrunning, hcq, hloop⟩ := of_decide_eq_true htest
  have hrequested : s.requested = schedulerConfig.queCap + 1 := by
    simp [State.requested, hrunning, schedulerConfig]
  have hnext : ∃ t, step schedulerConfig s (.run 16385) = some t ∧
      t.pc = .handle 16385 16385 := by
    simp [step, hloop, hp, runStep, hcq, hrunning, State.goto]
  obtain ⟨t, ht, hhandle⟩ := hnext
  refine ⟨s, t, hwaiting.run hs, hp, hrequested, ht, hhandle, fun hfits => ?_⟩
  have hle := hfits.1 hp
  omega

instance (cfg : Config) (s : State) : DecidablePred (HasRoom cfg s)
  | .act .prepareIo => inferInstanceAs (Decidable (_ < _))
  | .act (.submit _) | .act (.earlySubmit _) | .act .registerWait | .act .unregisterWait
  | .start | .run _ | .stopImpl | .callback _ | .wakeUp | .leave | .push _ | .write
  | .requestStop | .writeStop | .unregisterWait | .complete | .signal => isTrue trivial

/-- One operation, and an array of one place. -/
theorem batch_fits_one : ∃ s, (machine tightConfig).ReachableUnder (HasRoom tightConfig) s ∧
    s.pc = .peek ∧ s.requested = 1 ∧ Fits tightConfig s := by
  have hrun : ((machine tightConfig).runUnder (HasRoom tightConfig) newState
      [.push 0, .write, .start, .run 0, .run 0, .run 0, .act .prepareIo, .leave, .run 0, .run 0,
        .run 1, .complete, .signal, .run 0]).map (fun s =>
      decide (s.pc = .peek ∧ s.requested = 1)) = some true := by
    decide
  obtain ⟨s, hs, htest⟩ := Machine.reachableUnder_of_run (by exact rfl) hrun
  obtain ⟨hp, hrequested⟩ := of_decide_eq_true htest
  exact ⟨s, hs, hp, hrequested, batch_fits tightConfig s hs⟩

end SheepCoro.Context
