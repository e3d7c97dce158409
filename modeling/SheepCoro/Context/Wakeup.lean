import SheepCoro.Context.Ledger

/-!
# A worker never sleeps on pending work

Between the sampling of the queue and the read of the eventfd the worker has
to remember everything that comes in.  It does so in the counter: what is in
the queue, beyond the tasks that the current round still executes, was added
to the counter or is about to be (`Queued`); the same goes for the entries of
the completion queue (`Reaped`) and for a stop request (`Told`).  A read takes
all of it at once, but behind the read the worker tests the stop state and
samples the queue again, and it peeks at the completion queue when the low
bits say so.

The low bits are the number of signalled completions as long as this is below
`2 ^ 24`.  A peek is bounded by `m_num_io_running`, which counts all the
operations that were prepared before the last `do_io_submit`, also those that
a full submission queue has sent off early.
-/

namespace SheepCoro.Context

open Lib

/-! ## What the counter stands for -/

/-- The tasks in the queue, at a position of the worker, against the calls of
`wake_up` since the last read, made or to come. -/
def Queued (len owed : Nat) : Pc → Prop
  | .work left => len ≤ left + owed
  | .emptyWaitTask | .ready | .stopCb | .stopCbWake | .doIoSubmit | .waitEventfd => len ≤ owed
  | .notStarted | .loop | .sample | .peek | .handle .. | .exited => True

/-- The same for the entries of the completion queue and the completions that
were signalled. -/
def Reaped (cq owed : Nat) : Pc → Prop
  | .peek => True
  | .handle _ num => cq ≤ num + owed
  | _ => cq ≤ owed

/-- The same for a stop request. -/
def Told (stop : Bool) (owed : Nat) : Pc → Prop
  | .sample | .work _ | .emptyWaitTask | .ready | .stopCb | .doIoSubmit | .waitEventfd =>
    stop = true → 0 < owed
  | .notStarted | .loop | .stopCbWake | .peek | .handle .. | .exited => True

theorem Queued.mono {len len' owed owed' : Nat} {p : Pc} (h : Queued len owed p)
    (hle : len' + owed ≤ len + owed') : Queued len' owed' p := by
  cases p with
  | work left =>
    unfold Queued at h ⊢
    omega
  | emptyWaitTask | ready | stopCb | stopCbWake | doIoSubmit | waitEventfd =>
    unfold Queued at h ⊢
    omega
  | notStarted | loop | sample | peek | handle | exited => trivial

theorem Reaped.mono {cq cq' owed owed' : Nat} {p : Pc} (h : Reaped cq owed p)
    (hle : cq' + owed ≤ cq + owed') : Reaped cq' owed' p := by
  cases p with
  | peek => trivial
  | handle left num =>
    unfold Reaped at h ⊢
    omega
  | notStarted | loop | sample | work | emptyWaitTask | ready | stopCb | stopCbWake
  | doIoSubmit | waitEventfd | exited =>
    unfold Reaped at h ⊢
    omega

theorem Told.mono {stop : Bool} {owed owed' : Nat} {p : Pc} (h : Told stop owed p)
    (hle : owed ≤ owed') : Told stop owed' p := by
  cases p with
  | sample | work | emptyWaitTask | ready | stopCb | doIoSubmit | waitEventfd =>
    exact fun hstop => Nat.lt_of_lt_of_le (h hstop) hle
  | notStarted | loop | stopCbWake | peek | handle | exited => trivial

/-- Whoever asks the context to stop is going to write. -/
theorem Told.of_pos {stop : Bool} {owed : Nat} {p : Pc} (h : 0 < owed) : Told stop owed p := by
  cases p with
  | sample | work | emptyWaitTask | ready | stopCb | doIoSubmit | waitEventfd => exact fun _ => h
  | notStarted | loop | stopCbWake | peek | handle | exited => trivial

structure Inv (s : State) : Prop where
  counter : s.counter = s.signals + taskFlag * s.wakes
  signals_lt : s.signals < 2 ^ 24
  wakes_lt : s.wakes < 2 ^ 20
  queued : Queued s.taskQueue.length (s.wakes + s.pendTask + s.submitting.toNat) s.pc
  reaped : Reaped s.cq (s.signals + s.pendCqe) s.pc
  told : Told s.stopRequested (s.wakes + s.pendStop) s.pc

/-- Fewer than `2 ^ 24` completions are signalled between two reads, and
`peek_batch_cqe` returns all the ready entries up to its limit. -/
def KernelAssumption (s : State) : Label → Prop
  | .signal => s.signals + 1 < 2 ^ 24
  | .run num => s.pc = .peek → num = min s.cq s.numIoRunning
  | _ => True

instance (s : State) : DecidablePred (KernelAssumption s)
  | .signal => inferInstanceAs (Decidable (_ < _))
  | .run _ => inferInstanceAs (Decidable (_ → _))
  | .start | .stopImpl | .callback _ | .act _ | .wakeUp | .leave | .push _ | .write
  | .requestStop | .writeStop | .unregisterWait | .complete => isTrue trivial

/-- The low bits of the counter are the completions that were signalled. -/
theorem wakeByCqe_iff {signals wakes : Nat} (h : signals < 2 ^ 24) :
    wakeByCqe (signals + taskFlag * wakes) = true ↔ 0 < signals := by
  have hmask : (signals + taskFlag * wakes) &&& cqeMask = signals := by
    show (signals + taskFlag * wakes) &&& (2 ^ 24 - 1) = signals
    rw [Nat.and_two_pow_sub_one_eq_mod]
    unfold taskFlag
    omega
  simp [wakeByCqe, hmask]

section Steps

variable {cfg : Config} {s s' : State}

/-- The write of a `wake_up`, once it goes through. -/
theorem wakeUp_spec (hcounter : s.counter = s.signals + taskFlag * s.wakes)
    (hs : s.wakeUp = some s') : ∃ c, c = s.signals + taskFlag * (s.wakes + 1) ∧
      s.wakes + 1 < 2 ^ 20 ∧ { s with counter := c, wakes := s.wakes + 1 } = s' := by
  obtain ⟨hfits, heq⟩ := Option.ite_none_right_eq_some.mp hs
  have hadd : s.counter + taskFlag = s.signals + taskFlag * (s.wakes + 1) := by
    rw [hcounter, Nat.mul_succ, Nat.add_assoc]
  refine ⟨_, hadd, ?_, Option.some.inj heq⟩
  rw [hadd] at hfits
  simp only [taskFlag, eventfdMax] at hfits
  omega

theorem Inv.submitTask {hd : Nat} (h : Inv s) (hsub : s.submitting = false) :
    Inv (s.submitTask cfg hd) := by
  unfold State.submitTask
  split_ifs
  · refine { h with queued := h.queued.mono ?_ }
    simp only [List.length_append, List.length_singleton, hsub, Bool.toNat_false,
      Bool.toNat_true]
    omega
  · exact h
  · exact { h with }

theorem Inv.act {a : Action} (h : Inv s) (hsub : s.submitting = false)
    (hs : act cfg s a = some s') : Inv s' := by
  cases a with
  | submit hd =>
    simp only [Context.act, Option.some.injEq] at hs
    subst hs
    exact h.submitTask hsub
  | prepareIo | earlySubmit | unregisterWait =>
    obtain ⟨_, ⟨⟩⟩ := Option.ite_none_right_eq_some.mp hs
    exact { h with }
  | registerWait =>
    simp only [Context.act, Option.some.injEq] at hs
    subst hs
    exact { h with }

/-- The worker goes on in its loop. -/
theorem Inv.goto {p : Pc} (h : Inv s)
    (hqueued : Queued s.taskQueue.length (s.wakes + s.pendTask + s.submitting.toNat) p)
    (hreaped : Reaped s.cq (s.signals + s.pendCqe) p)
    (htold : Told s.stopRequested (s.wakes + s.pendStop) p) : Inv (s.goto p) where
  counter := h.counter
  signals_lt := h.signals_lt
  wakes_lt := h.wakes_lt
  queued := hqueued
  reaped := hreaped
  told := htold

/-- Nothing was prepared since `do_io_submit`, so the limit of the peek
covers all the entries. -/
theorem Books.peek_all {num : Nat} (hb : Books s) (hp : s.pc = .peek)
    (hall : num = min s.cq s.numIoRunning) : num = s.cq := by
  have hsubmitted := hb.submitted (.inr hp)
  have hledger := hb.ledger
  omega

/-- A read takes the whole counter. -/
theorem Inv.drain {p : Pc} (hp : p = .peek ∨ p = .loop) (hreaped : Reaped s.cq (0 + s.pendCqe) p) :
    Inv { s with counter := 0, signals := 0, wakes := 0, pc := p } where
  counter := rfl
  signals_lt := Nat.two_pow_pos _
  wakes_lt := Nat.two_pow_pos _
  queued := by rcases hp with rfl | rfl <;> trivial
  reaped := hreaped
  told := by rcases hp with rfl | rfl <;> trivial

theorem Inv.run {num : Nat} (hsched : cfg.scheduled = true) (h : Inv s) (hb : Books s)
    (hall : s.pc = .peek → num = min s.cq s.numIoRunning)
    (hs : runStep cfg s num s.pc = some s') : Inv s' := by
  have hqueued := h.queued
  have hreaped := h.reaped
  have htold := h.told
  cases runStep_cases hs with
  | exit hp =>
    rw [hp] at hreaped
    exact h.goto trivial hreaped trivial
  | enter hp hstop =>
    rw [hp] at hreaped
    refine h.goto trivial hreaped fun heq => ?_
    rw [hstop] at heq
    cases heq
  | sample hp =>
    rw [hp] at hreaped htold
    exact h.goto (Nat.le_add_right ..) hreaped htold
  | pop hp hqueue =>
    rw [hp] at hqueued hreaped htold
    rw [hqueue] at hqueued
    refine { h with queued := ?_, reaped := hreaped, told := htold }
    simp only [Queued, List.length_cons] at hqueued ⊢
    omega
  | worked hp =>
    rw [hp] at hqueued hreaped htold
    rw [Queued, Nat.zero_add] at hqueued
    exact h.goto hqueued hreaped htold
  | empty hp | waits hp | idle hp | stopped hp | submitNone hp =>
    rw [hp] at hqueued hreaped htold
    exact h.goto hqueued hreaped htold
  | back hp =>
    rw [hp] at hreaped
    exact h.goto trivial hreaped trivial
  | stopSelf _ hst =>
    rw [hsched] at hst
    cases hst
  | stopWake hp hu =>
    rw [hp] at hqueued hreaped
    obtain ⟨c, hc, hlt, rfl⟩ := wakeUp_spec h.counter hu
    have hwritten : 0 < s.wakes + 1 + s.pendStop := by omega
    exact { h with
      counter := hc
      wakes_lt := hlt
      queued := hqueued.mono (by dsimp only [State.goto]; omega)
      reaped := hreaped
      told := Told.of_pos hwritten }
  | submit hp =>
    rw [hp] at hqueued hreaped htold
    exact { h with queued := hqueued, reaped := hreaped, told := htold }
  | readCqe => exact Inv.drain (.inl rfl) trivial
  | read hp hcqe =>
    -- The low bits are zero, so nothing was signalled.
    rw [hp] at hreaped
    have hzero : s.signals = 0 := by
      rw [h.counter] at hcqe
      by_contra hne
      rw [(wakeByCqe_iff h.signals_lt).mpr (by omega)] at hcqe
      cases hcqe
    rw [hzero] at hreaped
    exact Inv.drain (.inr rfl) hreaped
  | peekNone hp =>
    refine h.goto trivial ?_ trivial
    have hcq := hb.peek_all hp (hall hp)
    unfold Reaped
    omega
  | peek hp =>
    refine h.goto trivial ?_ trivial
    have hcq := hb.peek_all hp (hall hp)
    unfold Reaped
    omega
  | handled hp =>
    rw [hp] at hreaped
    refine { h with queued := trivial, reaped := ?_, told := trivial }
    unfold Reaped at hreaped ⊢
    dsimp only
    omega

theorem Inv.step {a : Label} (hsched : cfg.scheduled = true) (h : Inv s) (hb : Books s)
    (hkernel : KernelAssumption s a) (hs : step cfg s a = some s') : Inv s' := by
  cases step_cases hs with
  | start hp =>
    have hreaped := h.reaped
    rw [hp] at hreaped
    exact h.goto trivial hreaped trivial
  | run _ hrun => exact h.run hsched hb hkernel hrun
  | stopImpl hp =>
    have hqueued := h.queued
    have hreaped := h.reaped
    rw [hp] at hqueued hreaped
    exact { h with queued := hqueued, reaped := hreaped, told := trivial }
  | @callback _ left num hp hloop =>
    have hreaped := h.reaped
    rw [hp] at hreaped
    have hgoto : Inv (s.goto (.handle left num)) := h.goto trivial hreaped trivial
    exact hgoto.submitTask hloop.2
  | act _ hsub hact => exact h.act hsub hact
  | wakeUp hsub hwrite =>
    obtain ⟨c, hc, hlt, rfl⟩ := wakeUp_spec (by exact h.counter) hwrite
    refine { h with
      counter := hc
      wakes_lt := hlt
      queued := h.queued.mono ?_
      told := h.told.mono (by dsimp only; omega) }
    simp only [hsub, Bool.toNat_true, Bool.toNat_false]
    omega
  | push =>
    refine { h with queued := h.queued.mono ?_ }
    simp only [List.length_append, List.length_singleton]
    omega
  | write hpos hwrite | writeStop hpos hwrite =>
    obtain ⟨c, hc, hlt, rfl⟩ := wakeUp_spec (by exact h.counter) hwrite
    exact { h with
      counter := hc
      wakes_lt := hlt
      queued := h.queued.mono (by dsimp only; omega)
      told := h.told.mono (by dsimp only; omega) }
  | requestStop => exact { h with told := Told.of_pos (by dsimp only; omega) }
  | leave | unregisterWait => exact { h with }
  | complete => exact { h with reaped := h.reaped.mono (by dsimp only; omega) }
  | signal =>
    -- The sum is far from the largest value, so nothing is cut off.
    have hfits : min (s.counter + 1) (2 ^ 64 - 1) = s.signals + 1 + taskFlag * s.wakes := by
      have hlow := h.signals_lt
      have hhigh := h.wakes_lt
      rw [h.counter]
      unfold taskFlag
      omega
    exact { h with
      counter := hfits
      signals_lt := hkernel
      reaped := h.reaped.mono (by dsimp only; omega) }

end Steps

theorem inv_of_reachable {cfg : Config} {s : State} (hsched : cfg.scheduled = true)
    (h : (machine cfg).ReachableUnder KernelAssumption s) : Inv s := by
  refine h.invariant (I := Inv) (fun s h0 => ?_) ?_
  · rw [show s = newState from h0]
    exact {
      counter := rfl
      signals_lt := Nat.two_pow_pos _
      wakes_lt := Nat.two_pow_pos _
      queued := trivial
      reaped := Nat.le_refl _
      told := trivial }
  · intro s a s' hr hinv hkernel hs
    exact hinv.step hsched (books_of_reachable hr.reachable) hkernel hs

/-- Nothing is left to do when the counter is zero and no write is to come. -/
theorem Inv.asleep {s : State} (hinv : Inv s) (hbooks : Books s) (hpc : s.pc = .waitEventfd)
    (hcounter : s.counter = 0) (hpend : s.pendTask = 0 ∧ s.pendStop = 0 ∧ s.pendCqe = 0) :
    s.taskQueue = [] ∧ s.cq = 0 ∧ s.stopRequested = false := by
  obtain ⟨htask, hstop, hcqe⟩ := hpend
  have hsignals : s.signals = 0 := by
    have hsum := hinv.counter
    omega
  have hwakes : s.wakes = 0 := by
    have hsum := hinv.counter
    unfold taskFlag at hsum
    omega
  have hloop := hbooks.resting (by rw [hpc]; rfl)
  have hqueued := hinv.queued
  have hreaped := hinv.reaped
  have htold := hinv.told
  rw [hpc, hwakes] at hqueued htold
  rw [hpc, hsignals, hcqe] at hreaped
  rw [htask, hloop.2] at hqueued
  rw [hstop] at htold
  refine ⟨List.length_eq_zero_iff.mp (Nat.le_zero.mp hqueued), Nat.le_zero.mp hreaped, ?_⟩
  by_contra hne
  exact absurd (htold (by simpa using hne)) (by omega)

/-- A worker of a scheduler that waits for its eventfd, with a counter of zero
and no write to come, has no task, no completion and no stop request to
take care of. -/
theorem never_sleeps_on_work (cfg : Config) (hsched : cfg.scheduled = true) (s : State)
    (h : (machine cfg).ReachableUnder KernelAssumption s) (hpc : s.pc = .waitEventfd)
    (hcounter : s.counter = 0) (hpend : s.pendTask = 0 ∧ s.pendStop = 0 ∧ s.pendCqe = 0) :
    s.taskQueue = [] ∧ s.cq = 0 ∧ s.stopRequested = false :=
  (inv_of_reachable hsched h).asleep (books_of_reachable h.reachable) hpc hcounter hpend

/-- The parameters of `config.h`; the kernel rounds up the number of
entries. -/
def schedulerConfig : Config where
  queCap := 16384
  maxRecursiveDepth := 4096
  sqEntries := 16384
  scheduled := true

/-- A task does one I/O request and ends.  The worker is woken by the
submission, by the completion and by the callback, and then it sleeps with
nothing left to do. -/
theorem never_sleeps_on_work_io : ∃ s,
    (machine schedulerConfig).ReachableUnder KernelAssumption s ∧ s.pc = .waitEventfd ∧
    s.counter = 0 ∧ s.taskQueue = [] ∧ s.cq = 0 ∧ s.stopRequested = false := by
  have hrun : ((machine schedulerConfig).runUnder KernelAssumption newState
      [.push 7, .write, .start, .run 0, .run 0, .run 0, .act .prepareIo, .leave,
        .run 0, .run 0, .run 1, .run 0,
        .run 0, .run 0, .run 0, .run 0, .run 0, .complete, .signal, .run 0,
        .run 1, .callback 7, .wakeUp, .run 0,
        .run 0, .run 0, .run 0, .leave, .run 0, .run 0, .run 0, .run 0, .run 0, .run 0,
        .run 0, .run 0, .run 0, .run 0, .run 0, .run 0, .run 0]).map (fun s =>
      decide (s.pc = .waitEventfd ∧ s.counter = 0 ∧
        s.pendTask = 0 ∧ s.pendStop = 0 ∧ s.pendCqe = 0)) = some true := by
    decide
  obtain ⟨s, hs, htest⟩ := Machine.reachableUnder_of_run (by exact rfl) hrun
  obtain ⟨hpc, hcounter, hpend⟩ := of_decide_eq_true htest
  exact ⟨s, hs, hpc, hcounter, never_sleeps_on_work schedulerConfig rfl s hs hpc hcounter hpend⟩

end SheepCoro.Context
