import SheepCoro.Context.Ledger

/-!
# A context without a scheduler

The default stop callback of `context::start` sets the stop state and nothing
else, while `notify_stop` also writes to the eventfd.  Behind the callback the
worker goes on to `poll_submit`, and the read there returns only if something
was added to the counter since the last read.  When the last task was
submitted before that read, nothing was: two tasks of which one waits for the
other leave the worker asleep for good (`event_pair_sleeps`), and so does a
context without a task.

A signal since the last read is also enough: the read returns and the loop
ends.  Without one the worker is stuck two steps later
(`stuck_of_not_signalled`).
-/

namespace SheepCoro.Context

open Lib

/-- The worker waits for an empty eventfd with its stop requested and no I/O
outstanding. -/
def Stuck (s : State) : Prop :=
  s.pc = .waitEventfd ∧ s.counter = 0 ∧ s.stopRequested = true ∧
    s.sq = 0 ∧ s.inflight = 0 ∧ s.cq = 0

instance (s : State) : Decidable (Stuck s) :=
  inferInstanceAs (Decidable (_ ∧ _ ∧ _ ∧ _ ∧ _ ∧ _))

/-- When the stop callback runs, some `submit_task` or some completion has
signalled since the last read. -/
def StopSignalled (s : State) : Label → Prop
  | .run _ => s.pc = .stopCb → 0 < s.wakes + s.signals
  | _ => True

instance (s : State) : DecidablePred (StopSignalled s)
  | .run _ => inferInstanceAs (Decidable (_ → _))
  | .start | .stopImpl | .callback _ | .act _ | .wakeUp | .leave | .push _ | .write
  | .requestStop | .writeStop | .unregisterWait | .complete | .signal => isTrue trivial

/-- Where the worker can be once its stop was requested.  Before the read it
has something to read. -/
def Stopping (counter : Nat) : Pc → Prop
  | .doIoSubmit | .waitEventfd => 0 < counter
  | .loop | .peek | .handle .. | .exited => True
  | _ => False

theorem Stopping.of_pos {c c' : Nat} {p : Pc} (h : Stopping c p) (hpos : 0 < c') :
    Stopping c' p := by
  cases p with
  | doIoSubmit | waitEventfd => exact hpos
  | loop | peek | handle | exited => trivial
  | notStarted | sample | work | emptyWaitTask | ready | stopCb | stopCbWake => cases h

section Steps

variable {cfg : Config} {s s' : State}

/-- The worker of a context that is to stop goes on in its loop. -/
theorem Stopping.run {num : Nat} (h : Stopping s.counter s.pc)
    (hs : runStep cfg s num s.pc = some s') (hstop : s.stopRequested = true) :
    Stopping s'.counter s'.pc := by
  cases runStep_cases hs with
  | sample hp | pop hp | worked hp | empty hp | waits hp | idle hp | back hp | stopped hp
  | stopSelf hp | stopWake hp =>
    rw [hp] at h
    cases h
  | enter _ hno =>
    rw [hstop] at hno
    cases hno
  | submit hp | submitNone hp =>
    rw [hp] at h
    exact h
  | exit | readCqe | read | peekNone | peek | handled => trivial

/-- Without a scheduler only the default stop callback requests a stop. -/
theorem runStep_stop {num : Nat} (hst : cfg.scheduled = false)
    (hs : runStep cfg s num s.pc = some s') (hnew : s'.stopRequested = true) :
    s.stopRequested = true ∨
      s.pc = .stopCb ∧ s' = { s with stopRequested := true, pc := .doIoSubmit } := by
  cases runStep_cases hs with
  | stopSelf hp => exact .inr ⟨hp, rfl⟩
  | stopped _ hsched =>
    rw [hst] at hsched
    cases hsched
  | stopWake _ hu =>
    obtain ⟨c, _, rfl⟩ := wakeUp_frame hu
    exact .inl hnew
  | exit | enter | sample | pop | worked | empty | waits | idle | back | submit | submitNone
  | readCqe | read | peekNone | peek | handled => exact .inl hnew

/-- The code of a task leaves the eventfd and the stop state to `wake_up`. -/
theorem submitTask_frame {hd : Nat} : (s.submitTask cfg hd).pc = s.pc ∧
    (s.submitTask cfg hd).counter = s.counter ∧
    (s.submitTask cfg hd).stopRequested = s.stopRequested := by
  unfold State.submitTask
  split_ifs
  · exact ⟨rfl, rfl, rfl⟩
  · exact ⟨rfl, rfl, rfl⟩
  · exact ⟨rfl, rfl, rfl⟩

theorem act_frame {a : Action} (hs : act cfg s a = some s') :
    s'.pc = s.pc ∧ s'.counter = s.counter ∧ s'.stopRequested = s.stopRequested := by
  cases a with
  | submit hd =>
    simp only [act, Option.some.injEq] at hs
    subst hs
    exact submitTask_frame
  | prepareIo | earlySubmit | unregisterWait =>
    obtain ⟨_, ⟨⟩⟩ := Option.ite_none_right_eq_some.mp hs
    exact ⟨rfl, rfl, rfl⟩
  | registerWait =>
    simp only [act, Option.some.injEq] at hs
    subst hs
    exact ⟨rfl, rfl, rfl⟩

theorem stopping_step {a : Label} (hst : cfg.scheduled = false) (hb : Books s)
    (h : s.stopRequested = true → Stopping s.counter s.pc) (hguard : StopSignalled s a)
    (hs : step cfg s a = some s') (hnew : s'.stopRequested = true) :
    Stopping s'.counter s'.pc := by
  cases step_cases hs with
  | start => trivial
  | run _ hrun =>
    rcases runStep_stop hst hrun hnew with hold | ⟨hp, rfl⟩
    · exact (h hold).run hrun hold
    · have hsignalled : 0 < s.wakes + s.signals := hguard hp
      have hiff := hb.signalled
      show 0 < s.counter
      omega
  | stopImpl _ hsched | requestStop hsched => simp [hst] at hsched
  | callback =>
    rw [submitTask_frame.1]
    trivial
  | act _ _ hact =>
    obtain ⟨hpc, hcounter, hstop⟩ := act_frame hact
    rw [hpc, hcounter]
    exact h (hstop ▸ hnew)
  | wakeUp _ hwrite | write _ hwrite | writeStop _ hwrite =>
    obtain ⟨c, hc, rfl⟩ := wakeUp_frame hwrite
    exact (h hnew).of_pos hc
  | leave | push | unregisterWait | complete => exact h hnew
  | signal =>
    have hpos : 0 < min (s.counter + 1) (2 ^ 64 - 1) := by omega
    exact (h hnew).of_pos hpos

end Steps

theorem stopping_of_reachable {cfg : Config} {s : State} (hst : cfg.scheduled = false)
    (h : (machine cfg).ReachableUnder StopSignalled s) (hstop : s.stopRequested = true) :
    Stopping s.counter s.pc := by
  refine h.invariant (I := fun s => s.stopRequested = true → Stopping s.counter s.pc) ?_ ?_ hstop
  · intro s h0 hstop
    rw [show s = newState from h0] at hstop
    cases hstop
  · intro s a s' hr hinv hguard hs hnew
    exact stopping_step hst (books_of_reachable hr.reachable) hinv hguard hs hnew

/-- A standalone context, whatever its tasks do, in every run in which the
stop callback finds a signal since the last read. -/
theorem standalone_never_stuck (cfg : Config) (hst : cfg.scheduled = false) (s : State)
    (h : (machine cfg).ReachableUnder StopSignalled s) : ¬ Stuck s := by
  rintro ⟨hpc, hcounter, hstop, _⟩
  have hstopping := stopping_of_reachable hst h hstop
  rw [hpc, hcounter] at hstopping
  exact Nat.lt_irrefl 0 hstopping

/-- The condition is the exact one: a worker that runs the default stop
callback without a signal since the last read is stuck two steps later. -/
theorem stuck_of_not_signalled {cfg : Config} {s : State} (hst : cfg.scheduled = false)
    (h : (machine cfg).Reachable s) (hpc : s.pc = .stopCb) (hnone : s.wakes + s.signals = 0) :
    ∃ t, (machine cfg).run s [.run 0, .run 0] = some t ∧ Stuck t := by
  have hb := books_of_reachable h
  have hloop : s.inLoop := hb.resting (by rw [hpc]; rfl)
  obtain ⟨hwait, hrunning⟩ := hb.idle (.inr (.inl hpc))
  have hledger := hb.ledger
  have hstop : (machine cfg).step s (.run 0) =
      some { s with stopRequested := true, pc := .doIoSubmit } := by
    simp [machine, step, runStep, hloop, hpc, hst]
  have hsubmit : (machine cfg).step { s with stopRequested := true, pc := .doIoSubmit } (.run 0) =
      some { s with stopRequested := true, pc := .waitEventfd } := by
    apply (if_pos hloop).trans
    simp [runStep, hwait, State.goto]
  refine ⟨{ s with stopRequested := true, pc := .waitEventfd }, ?_, rfl, ?_, rfl, ?_⟩
  · simp only [Machine.run, Machine.runUnder, if_true, hstop, hsubmit, Option.bind_some]
  · exact hb.signalled.mpr hnone
  · dsimp only
    omega

/-- Nobody is left who could end the wait. -/
theorem Stuck.deadlock {cfg : Config} {s : State} (hst : cfg.scheduled = false)
    (h : (machine cfg).Reachable s) (hstuck : Stuck s)
    (hpend : s.pendTask = 0 ∧ s.pendStop = 0 ∧ s.pendCqe = 0) (a : Label) :
    step cfg s a = none := by
  obtain ⟨hpc, hcounter, _, _, hinflight, _⟩ := hstuck
  obtain ⟨hcalls, hsub⟩ := (books_of_reachable h).resting (by rw [hpc]; rfl)
  obtain ⟨htask, hstop, hcqe⟩ := hpend
  cases a with
  | start | stopImpl | callback | push => simp [step, hpc, hst]
  | run num => simp [step, runStep, hpc, hcounter]
  | act | wakeUp | leave => simp [step, hcalls, hsub]
  | write => simp [step, htask]
  | requestStop | unregisterWait => simp [step, hst]
  | writeStop => simp [step, hstop]
  | complete => simp [step, hinflight]
  | signal => simp [step, hcqe]

/-- A context of its own, with the parameters of `config.h`. -/
def standaloneConfig : Config where
  queCap := 16384
  maxRecursiveDepth := 4096
  sqEntries := 16384
  scheduled := false

/-- One plain task is submitted, started and joined. -/
theorem standalone_never_stuck_plain : ∃ s,
    (machine standaloneConfig).ReachableUnder StopSignalled s ∧ s.pc = .waitEventfd ∧
    s.stopRequested = true ∧ ¬ Stuck s := by
  have hrun : ((machine standaloneConfig).runUnder StopSignalled newState
      [.push 0, .write, .start, .run 0, .run 0, .run 0, .leave, .run 0, .run 0, .run 0, .run 0,
        .run 0]).map (fun s => decide (s.pc = .waitEventfd ∧ s.stopRequested = true)) =
        some true := by
    decide
  obtain ⟨s, hs, htest⟩ := Machine.reachableUnder_of_run (by exact rfl) hrun
  obtain ⟨hpc, hstop⟩ := of_decide_eq_true htest
  exact ⟨s, hs, hpc, hstop, standalone_never_stuck standaloneConfig rfl s hs⟩

/-- Task `0` awaits an event and task `1` sets it.  The read of the first
round takes all the three signals; task `0` goes on in the second round and
ends; the stop callback runs; nothing can happen any more. -/
theorem event_pair_sleeps : ∃ s, (machine standaloneConfig).Reachable s ∧ Stuck s ∧
    ∀ a, step standaloneConfig s a = none := by
  have hrun : ((machine standaloneConfig).run newState
      [.push 0, .write, .push 1, .write, .start, .run 0, .run 0,
        .run 0, .act .registerWait, .leave,
        .run 0, .act (.submit 0), .wakeUp, .leave,
        .run 0, .run 0, .run 0, .run 0, .run 0, .run 0,
        .run 0, .act .unregisterWait, .leave,
        .run 0, .run 0, .run 0, .run 0, .run 0]).map (fun s =>
      decide (Stuck s ∧ s.pendTask = 0 ∧ s.pendStop = 0 ∧ s.pendCqe = 0)) = some true := by
    decide
  obtain ⟨s, hs, htest⟩ := Machine.reachable_of_run (by exact rfl) hrun
  obtain ⟨hstuck, hpend⟩ := of_decide_eq_true htest
  exact ⟨s, hs, hstuck, hstuck.deadlock rfl hs hpend⟩

end SheepCoro.Context
