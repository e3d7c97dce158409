import SheepCoro.Context.Wakeup
import SheepCoro.Lib.History

/-!
# The wake-ups that nobody reads

Every `submit_task` that pushes a handle adds `2 ^ 44` to the eventfd, and the
eventfd holds at most `2 ^ 64 - 2`.  A write that does not fit waits for a
read.  The worker is the only reader, so a write of its own that waits is
never let through.

The worker reads in `poll_submit`.  When nothing waits and the queue is not
empty, `context::run` goes back to its head without polling, so a task that
submits another one and ends, again and again, fills the counter
(`chain_blocks`).

What bounds the counter in the other runs is the queue.  A push needs room,
room comes from a pop, and one round of the loop pops what was in the queue
when it began.  So the writes of a round, those of the other threads included,
are at most twice the capacity (`load`), and only the jump back, a read that
leaves writes to come, and a stop request let the bound grow.
-/

namespace SheepCoro.Context

open Lib

/-- The worker is about to call `wake_up`. -/
def State.waking (s : State) : Prop :=
  s.submitting = true ∨ s.pc = .stopCbWake

/-- The calls of `wake_up` since the last read, and those that other threads
are about to make. -/
def State.owed (s : State) : Nat :=
  s.wakes + s.pendTask + s.pendStop

/-- With so many writes made or to come the worker can begin a round. -/
def Low (cfg : Config) (owed : Nat) : Prop :=
  owed + 2 * cfg.queCap + 4 ≤ 2 ^ 20

/-- The worker goes back without polling, and others ask it to stop, only when
few writes are undrained; a read leaves few writes to come; and the kernel
signals fewer than `2 ^ 44` completions between two reads. -/
def Drains (cfg : Config) (s : State) : Label → Prop
  | .run _ => (s.pc = .ready → s.taskQueue ≠ [] → Low cfg s.owed) ∧
      (s.pc = .waitEventfd → Low cfg (s.pendTask + s.pendStop))
  | .requestStop | .stopImpl => Low cfg s.owed
  | .signal => s.signals + 2 < 2 ^ 44
  | _ => True

instance (cfg : Config) (owed : Nat) : Decidable (Low cfg owed) :=
  inferInstanceAs (Decidable (_ ≤ _))

instance (cfg : Config) (s : State) : DecidablePred (Drains cfg s)
  | .run _ => inferInstanceAs (Decidable (_ ∧ _))
  | .requestStop | .stopImpl => inferInstanceAs (Decidable (Low cfg _))
  | .signal => inferInstanceAs (Decidable (_ < _))
  | .start | .callback _ | .act _ | .wakeUp | .leave | .push _ | .write | .writeStop
  | .unregisterWait | .complete => isTrue trivial

/-! ## The load of a round -/

/-- How many tasks the worker pops before it polls or goes back. -/
def Pc.budget (cap : Nat) : Pc → Nat
  | .notStarted | .loop | .sample | .peek | .handle .. => cap
  | .work left => left
  | .stopCbWake => 1 -- a write, not a pop
  | .emptyWaitTask | .ready | .stopCb | .doIoSubmit | .waitEventfd | .exited => 0

/-- The writes since the last read, made, to come, or still possible in this
round. -/
def load (cfg : Config) (s : State) : Nat :=
  s.owed + s.submitting.toNat + (cfg.queCap - s.taskQueue.length) + s.pc.budget cfg.queCap

structure Bounded (cfg : Config) (s : State) : Prop where
  counter : s.counter = s.signals + taskFlag * s.wakes
  signals_lt : s.signals + 1 < 2 ^ 44
  length_le : s.taskQueue.length ≤ cfg.queCap
  budget_le : s.pc.budget cfg.queCap ≤ cfg.queCap + 1
  load_lt : load cfg s < 2 ^ 20

section Steps

variable {cfg : Config} {s s' : State}

/-- A write of the worker fits. -/
theorem Bounded.fits (h : Bounded cfg s) (hwaking : s.waking) :
    s.wakes + 1 < 2 ^ 20 ∧ s.counter + taskFlag ≤ eventfdMax := by
  have hone : 1 ≤ s.submitting.toNat + s.pc.budget cfg.queCap := by
    rcases hwaking with hsub | hpc
    · simp [hsub]
    · simp [hpc, Pc.budget]
  have hload := h.load_lt
  have hsignals := h.signals_lt
  have hcounter := h.counter
  unfold load State.owed at hload
  have hwakes : s.wakes + 1 < 2 ^ 20 := by omega
  refine ⟨hwakes, ?_⟩
  unfold taskFlag at hcounter ⊢
  unfold eventfdMax
  omega

theorem Bounded.goto {p : Pc} (h : Bounded cfg s)
    (hp : p.budget cfg.queCap ≤ s.pc.budget cfg.queCap) : Bounded cfg (s.goto p) := by
  have hload := h.load_lt
  refine { h with budget_le := Nat.le_trans hp h.budget_le, load_lt := ?_ }
  unfold load at hload ⊢
  show s.owed + s.submitting.toNat + (cfg.queCap - s.taskQueue.length) +
    p.budget cfg.queCap < 2 ^ 20
  omega

/-- The push takes the room that the write is counted for. -/
theorem Bounded.submitTask {hd : Nat} (h : Bounded cfg s) (hsub : s.submitting = false) :
    Bounded cfg (s.submitTask cfg hd) := by
  have hload := h.load_lt
  unfold State.submitTask
  split_ifs with hroom
  · refine { h with length_le := ?_, load_lt := ?_ }
    · rw [List.length_append]
      exact hroom
    · unfold load State.owed at hload ⊢
      simp only [List.length_append, List.length_singleton, Bool.toNat_true]
      simp only [hsub, Bool.toNat_false] at hload
      omega
  · exact h
  · exact { h with }

/-- A write for which the load has room. -/
theorem Bounded.wakeUp (h : Bounded cfg s) (hroom : load cfg s + 1 < 2 ^ 20)
    (hs : s.wakeUp = some s') : Bounded cfg s' := by
  obtain ⟨c, hc, _, rfl⟩ := wakeUp_spec h.counter hs
  refine { h with counter := hc, load_lt := ?_ }
  unfold load State.owed at hroom ⊢
  dsimp only
  omega

/-- A write that the worker or another thread was about to make. -/
theorem Bounded.pay {b : Bool} {m n : Nat} (h : Bounded cfg s)
    (hpaid : load cfg { s with submitting := b, pendTask := m, pendStop := n } + 1 = load cfg s)
    (hs : { s with submitting := b, pendTask := m, pendStop := n }.wakeUp = some s') :
    Bounded cfg s' := by
  have hload := h.load_lt
  have ht : Bounded cfg { s with submitting := b, pendTask := m, pendStop := n } :=
    { h with load_lt := by omega }
  exact ht.wakeUp (by omega) hs

theorem Bounded.load_le (h : Bounded cfg s) : load cfg s ≤ s.owed + 2 * cfg.queCap + 2 := by
  have hbudget := h.budget_le
  have hsub := Bool.toNat_le s.submitting
  unfold load
  omega

theorem Bounded.act {a : Action} (h : Bounded cfg s) (hsub : s.submitting = false)
    (hs : act cfg s a = some s') : Bounded cfg s' := by
  cases a with
  | submit hd =>
    simp only [Context.act, Option.some.injEq] at hs
    subst hs
    exact h.submitTask hsub
  | registerWait =>
    simp only [Context.act, Option.some.injEq] at hs
    subst hs
    exact { h with }
  | prepareIo | earlySubmit num | unregisterWait =>
    obtain ⟨_, ⟨⟩⟩ := Option.ite_none_right_eq_some.mp hs
    exact { h with }

/-- A round pops what was in the queue when it began. -/
theorem Bounded.run {num : Nat} (h : Bounded cfg s) (hloop : s.inLoop)
    (hguard : Drains cfg s (.run num)) (hs : runStep cfg s num s.pc = some s') :
    Bounded cfg s' := by
  obtain ⟨hready, hread⟩ := hguard
  have hload := h.load_lt
  have hlength := h.length_le
  cases runStep_cases hs with
  | exit | worked | empty | waits | idle | stopped | submitNone => exact h.goto (Nat.zero_le _)
  | enter hp | peekNone hp | peek hp => exact h.goto (by rw [hp]; exact Nat.le_refl _)
  | sample hp => exact h.goto (by rw [hp]; exact hlength)
  | pop hp hqueue =>
    -- A pop makes room for a push.
    have hbudget := h.budget_le
    unfold load State.owed at hload
    rw [hp, hqueue] at hload
    rw [hp] at hbudget
    rw [hqueue] at hlength
    simp only [Pc.budget, List.length_cons] at hload hbudget hlength
    refine { h with length_le := ?_, budget_le := ?_, load_lt := ?_ }
    · dsimp only
      omega
    · simp only [Pc.budget]
      omega
    · simp only [load, State.owed, Pc.budget]
      omega
  | back hp hqueue =>
    -- A new round begins, and the counter was not read.
    have hlow := hready hp hqueue
    refine { h with budget_le := Nat.le_succ _, load_lt := ?_ }
    unfold Low State.owed at hlow
    simp only [load, State.owed, State.goto, hloop.2, Bool.toNat_false, Pc.budget]
    omega
  | stopSelf =>
    have hgoto : Bounded cfg (s.goto .doIoSubmit) := h.goto (Nat.zero_le _)
    exact { hgoto with }
  | @stopWake u hp hu =>
    have hgoto : Bounded cfg (s.goto .stopCb) := h.goto (Nat.zero_le _)
    have hwrite : (s.goto .stopCb).wakeUp = some (u.goto .stopCb) := by
      obtain ⟨hfits, ⟨⟩⟩ := Option.ite_none_right_eq_some.mp hu
      exact if_pos hfits
    refine hgoto.wakeUp ?_ hwrite
    unfold load State.owed at hload
    simp only [hp, Pc.budget] at hload
    simp only [load, State.owed, State.goto, Pc.budget]
    omega
  | submit =>
    have hgoto : Bounded cfg (s.goto .waitEventfd) := h.goto (Nat.zero_le _)
    exact { hgoto with }
  | readCqe hp | read hp =>
    have hlow := hread hp
    refine ⟨rfl, show 0 + 1 < 2 ^ 44 by omega, hlength, Nat.le_succ _, ?_⟩
    unfold Low at hlow
    simp only [load, State.owed, hloop.2, Bool.toNat_false, Pc.budget]
    omega
  | handled hp =>
    have hgoto : Bounded cfg (s.goto .loop) := h.goto (by rw [hp]; exact Nat.le_refl _)
    exact { hgoto with }

theorem Bounded.step {a : Label} (h : Bounded cfg s) (hguard : Drains cfg s a)
    (hs : step cfg s a = some s') : Bounded cfg s' := by
  have hload := h.load_lt
  cases step_cases hs with
  | start hp => exact h.goto (by rw [hp]; exact Nat.le_refl _)
  | run hloop hrun => exact h.run hloop hguard hrun
  | stopImpl hp =>
    have hle := h.load_le
    have hlow : Low cfg s.owed := hguard
    refine { h with budget_le := Nat.succ_le_succ (Nat.zero_le _), load_lt := ?_ }
    unfold Low at hlow
    unfold load at hle ⊢
    simp only [hp, Pc.budget, State.owed] at hle hlow ⊢
    omega
  | @callback _ left num hp hloop =>
    have hgoto : Bounded cfg (s.goto (.handle left num)) :=
      h.goto (by rw [hp]; exact Nat.le_refl _)
    exact hgoto.submitTask hloop.2
  | act _ hsub hact => exact h.act hsub hact
  | wakeUp hsub hwrite =>
    refine h.pay ?_ hwrite
    simp only [load, State.owed, hsub, Bool.toNat_true, Bool.toNat_false]
    omega
  | push _ hroom =>
    refine { h with length_le := ?_, load_lt := ?_ }
    · rw [List.length_append]
      exact hroom
    · unfold load State.owed at hload ⊢
      simp only [List.length_append, List.length_singleton]
      omega
  | write hpos hwrite | writeStop hpos hwrite =>
    refine h.pay ?_ hwrite
    simp only [load, State.owed]
    omega
  | requestStop =>
    have hle := h.load_le
    have hlow : Low cfg s.owed := hguard
    refine { h with load_lt := ?_ }
    unfold Low at hlow
    simp only [load, State.owed] at hle hlow ⊢
    omega
  | leave | unregisterWait | complete => exact { h with }
  | signal =>
    have hfew : s.signals + 2 < 2 ^ 44 := hguard
    have hcounter := h.counter
    unfold load State.owed at hload
    refine { h with counter := ?_, signals_lt := hfew }
    -- Below both bounds the kernel's signal is not cut off.
    unfold taskFlag at hcounter ⊢
    dsimp only
    omega

end Steps

theorem bounded_of_reachable {cfg : Config} {s : State} (hcap : Low cfg 0)
    (h : (machine cfg).ReachableUnder (Drains cfg) s) : Bounded cfg s := by
  refine h.invariant (I := Bounded cfg) (fun s h0 => ?_) fun s a s' _ hb hg hs => hb.step hg hs
  rw [show s = newState from h0]
  refine ⟨rfl, by decide, Nat.zero_le _, Nat.le_succ _, ?_⟩
  unfold Low at hcap
  simp only [load, State.owed, newState, Pc.budget, Bool.toNat_false, List.length_nil]
  omega

/-! ## A chain of tasks -/

section Chain

variable {cfg : Config}

/-- The head of the loop with one task in the queue and `k` undrained
writes. -/
def round (k : Nat) : State :=
  { newState with counter := taskFlag * k, wakes := k, taskQueue := [0], pc := .loop }

/-- The task has submitted the next one. -/
def submitted (k : Nat) : State :=
  { round k with pc := .work 0, calls := [⟨0, false⟩], submitting := true }

/-- A task is submitted, and the worker is started. -/
theorem run_first (hcap : 0 < cfg.queCap) :
    (machine cfg).run newState [.push 0, .write, .start] = some (round 1) := by
  simp [Machine.run, Machine.runUnder, machine, step, newState, round, State.goto, State.wakeUp,
    taskFlag, eventfdMax, hcap]

/-- The task submits the next one. -/
theorem run_submit (k : Nat) (hcap : 0 < cfg.queCap) :
    (machine cfg).run (round k) [.run 0, .run 0, .run 0, .act (.submit 0)] =
      some (submitted k) := by
  simp [Machine.run, Machine.runUnder, machine, step, runStep, act, newState, round, submitted,
    State.goto, State.inLoop, State.submitTask, hcap]

/-- The write goes through, the task ends, and the worker goes back without
polling. -/
theorem run_back (k : Nat) (hfits : taskFlag * k + taskFlag ≤ eventfdMax) :
    (machine cfg).run (submitted k) [.wakeUp, .leave, .run 0, .run 0, .run 0] =
      some (round (k + 1)) := by
  simp [Machine.run, Machine.runUnder, machine, step, runStep, newState, round, submitted,
    State.goto, State.inLoop, State.wakeUp, State.emptyIo, hfits, Nat.mul_succ]

theorem reachable_round (hcap : 0 < cfg.queCap) (k : Nat) (hk : k + 1 < 2 ^ 20) :
    (machine cfg).Reachable (round (k + 1)) := by
  induction k with
  | zero => exact Machine.Reachable.run (.init rfl) (run_first hcap)
  | succ k ih =>
    have hround := ih (by omega)
    have hsub := hround.run (run_submit (k + 1) hcap)
    have hfits : taskFlag * (k + 1) + taskFlag ≤ eventfdMax := by
      unfold taskFlag eventfdMax
      omega
    exact hsub.run (run_back (k + 1) hfits)

end Chain

/-- In every run in which the worker goes back without polling only when few
writes are undrained, and in which the other threads and the kernel do not
fill the counter by themselves, a `wake_up` of the worker goes through. -/
theorem own_wake_succeeds (cfg : Config) (hcap : Low cfg 0) (s : State)
    (h : (machine cfg).ReachableUnder (Drains cfg) s) (hwaking : s.waking) :
    s.wakes + 1 < 2 ^ 20 ∧ s.wakeUp.isSome = true := by
  obtain ⟨hwakes, hfits⟩ := (bounded_of_reachable hcap h).fits hwaking
  refine ⟨hwakes, ?_⟩
  simp [State.wakeUp, hfits]

/-- A task submits the next one, and that one submits another. -/
theorem own_wake_succeeds_chain : ∃ s,
    (machine schedulerConfig).ReachableUnder (Drains schedulerConfig) s ∧ s.waking ∧
      s.wakes = 2 ∧ s.wakeUp.isSome = true := by
  have hrun : ((machine schedulerConfig).runUnder (Drains schedulerConfig) newState
      [.push 0, .write, .start, .run 0, .run 0, .run 0, .act (.submit 0), .wakeUp, .leave,
        .run 0, .run 0, .run 0, .run 0, .run 0, .run 0, .act (.submit 0)]).map
      (fun s => decide (s.submitting = true ∧ s.wakes = 2)) = some true := by
    decide
  obtain ⟨s, hs, htest⟩ := Machine.reachableUnder_of_run (by exact rfl) hrun
  obtain ⟨hsub, hwakes⟩ := of_decide_eq_true htest
  exact ⟨s, hs, .inl hsub, hwakes,
    (own_wake_succeeds schedulerConfig (by decide) s hs (.inl hsub)).2⟩

/-- A chain of `2 ^ 20` tasks, each of which submits the next one and ends:
the last submission waits in `wake_up` for a read that only the worker itself
could make. -/
theorem chain_blocks : ∃ s, (machine schedulerConfig).Reachable s ∧ s.waking ∧
    s.wakeUp = none := by
  have hcap : 0 < schedulerConfig.queCap := by decide
  have hround := reachable_round hcap (2 ^ 20 - 2) (by omega)
  refine ⟨_, hround.run (run_submit _ hcap), .inl rfl, ?_⟩
  have hfull : ¬ taskFlag * (2 ^ 20 - 2 + 1) + taskFlag ≤ eventfdMax := by
    unfold taskFlag eventfdMax
    omega
  exact if_neg hfull

end SheepCoro.Context
