import SheepCoro.Context.Model
import Mathlib.Tactic.Common

/-!
# The books of a worker

What holds at every position of the run loop whoever manages the context and
whatever the kernel does: the operations that were prepared and not retired
are the ones that `m_num_io_wait_submit` and `m_num_io_running` count, and the
code of a task runs only where the loop calls it.

An awaiter that finds the submission queue full submits early, so an operation
may be in the kernel, or complete, while `m_num_io_wait_submit` still counts
it.  `do_io_submit` moves the whole count, so behind it `m_num_io_running`
counts everything.
-/

namespace SheepCoro.Context

open Lib

/-- The worker executes a task or a callback at this position. -/
def Pc.executes : Pc → Bool
  | .work _ | .handle .. => true
  | _ => false

/-- The counts say nothing in particular at this position. -/
def Pc.plain : Pc → Bool
  | .handle .. | .waitEventfd | .peek | .ready | .stopCb | .stopCbWake => false
  | _ => true

structure Books (s : State) : Prop where
  signalled : s.counter = 0 ↔ s.wakes + s.signals = 0
  ledger : s.sq + s.inflight + s.cq = s.numIoWaitSubmit + s.numIoRunning
  batch : ∀ left num, s.pc = .handle left num → num ≤ s.cq ∧ num ≤ s.numIoRunning
  submitted : s.pc = .waitEventfd ∨ s.pc = .peek → s.numIoWaitSubmit = 0
  idle : s.pc = .ready ∨ s.pc = .stopCb ∨ s.pc = .stopCbWake → s.emptyIo
  resting : s.pc.executes = false → s.inLoop

section Steps

variable {cfg : Config} {s s' : State}

/-- A write changes the counter and nothing else of the worker. -/
theorem wakeUp_frame (hs : s.wakeUp = some s') :
    ∃ c, 0 < c ∧ { s with counter := c, wakes := s.wakes + 1 } = s' := by
  obtain ⟨_, heq⟩ := Option.ite_none_right_eq_some.mp hs
  refine ⟨_, ?_, Option.some.inj heq⟩
  exact Nat.lt_of_lt_of_le (Nat.two_pow_pos 44) (Nat.le_add_left ..)

/-- What the worker does in its loop, one case for each way to go on from a
position. -/
inductive RunStep (cfg : Config) (s : State) (num : Nat) : State → Prop
  | exit (hp : s.pc = .loop) (hstop : s.stopRequested = true) : RunStep cfg s num (s.goto .exited)
  | enter (hp : s.pc = .loop) (hstop : s.stopRequested = false) :
    RunStep cfg s num (s.goto .sample)
  | sample (hp : s.pc = .sample) : RunStep cfg s num (s.goto (.work s.taskQueue.length))
  | pop {left hd : Nat} {rest : List Nat} (hp : s.pc = .work (left + 1))
    (hqueue : s.taskQueue = hd :: rest) :
    RunStep cfg s num { s with taskQueue := rest, calls := [⟨hd, false⟩], pc := .work left }
  | worked (hp : s.pc = .work 0) : RunStep cfg s num (s.goto .emptyWaitTask)
  | empty (hp : s.pc = .emptyWaitTask) (hempty : s.numWaitTask = 0 ∧ s.emptyIo) :
    RunStep cfg s num (s.goto .ready)
  | waits (hp : s.pc = .emptyWaitTask) : RunStep cfg s num (s.goto .doIoSubmit)
  | idle (hp : s.pc = .ready) (hqueue : s.taskQueue = []) : RunStep cfg s num (s.goto .stopCb)
  | back (hp : s.pc = .ready) (hqueue : s.taskQueue ≠ []) : RunStep cfg s num (s.goto .loop)
  | stopped (hp : s.pc = .stopCb) (hsched : cfg.scheduled = true) :
    RunStep cfg s num (s.goto .doIoSubmit)
  | stopSelf (hp : s.pc = .stopCb) (hsched : cfg.scheduled = false) :
    RunStep cfg s num { s with stopRequested := true, pc := .doIoSubmit }
  | stopWake {u : State} (hp : s.pc = .stopCbWake) (hu : s.wakeUp = some u) :
    RunStep cfg s num (u.goto .stopCb)
  | submit (hp : s.pc = .doIoSubmit) (hnum : num ≤ s.sq) :
    RunStep cfg s num { s with
      sq := s.sq - num
      inflight := s.inflight + num
      numIoRunning := s.numIoRunning + s.numIoWaitSubmit
      numIoWaitSubmit := 0
      pc := .waitEventfd }
  | submitNone (hp : s.pc = .doIoSubmit) (hnone : s.numIoWaitSubmit = 0) :
    RunStep cfg s num (s.goto .waitEventfd)
  | readCqe (hp : s.pc = .waitEventfd) (hcqe : wakeByCqe s.counter = true) :
    RunStep cfg s num { s with counter := 0, signals := 0, wakes := 0, pc := .peek }
  | read (hp : s.pc = .waitEventfd) (hcqe : wakeByCqe s.counter = false) :
    RunStep cfg s num { s with counter := 0, signals := 0, wakes := 0, pc := .loop }
  | peekNone (hp : s.pc = .peek) (hnum : num = 0) : RunStep cfg s num (s.goto .loop)
  | peek (hp : s.pc = .peek) (hnum : num ≤ s.cq ∧ num ≤ s.numIoRunning) :
    RunStep cfg s num (s.goto (.handle num num))
  | handled {n : Nat} (hp : s.pc = .handle 0 n) :
    RunStep cfg s num { s with cq := s.cq - n, numIoRunning := s.numIoRunning - n, pc := .loop }

theorem runStep_cases {num : Nat} (hs : runStep cfg s num s.pc = some s') :
    RunStep cfg s num s' := by
  cases hp : s.pc with
  | notStarted | exited =>
    rw [hp] at hs
    cases hs
  | loop =>
    rw [hp] at hs
    simp only [runStep, Option.some.injEq] at hs
    subst hs
    split_ifs with hstop
    · exact .exit hp hstop
    · exact .enter hp (by simpa using hstop)
  | sample =>
    rw [hp] at hs
    simp only [runStep, Option.some.injEq] at hs
    subst hs
    exact .sample hp
  | work left =>
    rw [hp] at hs
    cases left with
    | zero =>
      simp only [runStep, Option.some.injEq] at hs
      subst hs
      exact .worked hp
    | succ left =>
      simp only [runStep] at hs
      split at hs
      · next hqueue =>
        cases hs
        exact .pop hp hqueue
      · cases hs
  | emptyWaitTask =>
    rw [hp] at hs
    simp only [runStep, Option.some.injEq] at hs
    subst hs
    split_ifs with hempty
    · exact .empty hp hempty
    · exact .waits hp
  | ready =>
    rw [hp] at hs
    simp only [runStep, Option.some.injEq] at hs
    subst hs
    split_ifs with hqueue
    · exact .idle hp hqueue
    · exact .back hp hqueue
  | stopCb =>
    rw [hp] at hs
    simp only [runStep] at hs
    split_ifs at hs with hsched
    · cases hs
      exact .stopped hp hsched
    · cases hs
      exact .stopSelf hp (by simpa using hsched)
  | stopCbWake =>
    rw [hp] at hs
    simp only [runStep] at hs
    obtain ⟨u, hu, rfl⟩ := Option.map_eq_some_iff.mp hs
    exact .stopWake hp hu
  | doIoSubmit =>
    rw [hp] at hs
    simp only [runStep] at hs
    split_ifs at hs with hsome hnum
    · cases hs
      exact .submit hp hnum
    · cases hs
      exact .submitNone hp (by omega)
  | waitEventfd =>
    rw [hp] at hs
    obtain ⟨_, ⟨⟩⟩ := Option.ite_none_right_eq_some.mp hs
    split_ifs with hcqe
    · exact .readCqe hp hcqe
    · exact .read hp (by simpa using hcqe)
  | peek =>
    rw [hp] at hs
    obtain ⟨hnum, ⟨⟩⟩ := Option.ite_none_right_eq_some.mp hs
    split_ifs with hzero
    · exact .peekNone hp hzero
    · exact .peek hp hnum
  | handle left n =>
    rw [hp] at hs
    cases left with
    | zero =>
      simp only [runStep, Option.some.injEq] at hs
      subst hs
      exact .handled hp
    | succ left => cases hs

/-- The worker goes on in its loop. -/
theorem Books.goto {p : Pc} (h : Books s) (hloop : s.inLoop)
    (hbatch : ∀ left num, p = .handle left num → num ≤ s.cq ∧ num ≤ s.numIoRunning)
    (hsubmitted : p = .waitEventfd ∨ p = .peek → s.numIoWaitSubmit = 0)
    (hidle : p = .ready ∨ p = .stopCb ∨ p = .stopCbWake → s.emptyIo) : Books (s.goto p) where
  signalled := h.signalled
  ledger := h.ledger
  batch := hbatch
  submitted := hsubmitted
  idle := hidle
  resting := fun _ => hloop

theorem Books.goto_plain {p : Pc} (h : Books s) (hloop : s.inLoop) (hp : p.plain = true) :
    Books (s.goto p) := by
  refine h.goto hloop ?_ ?_ ?_
  · rintro left num rfl
    cases hp
  · rintro (rfl | rfl) <;> cases hp
  · rintro (rfl | rfl | rfl) <;> cases hp

theorem Books.executes (h : Books s) (hcalls : s.calls ≠ []) : s.pc.executes = true := by
  by_contra hne
  exact hcalls (h.resting (by simpa using hne)).1

theorem Books.submitTask {hd : Nat} (h : Books s) (hexec : s.pc.executes = true) :
    Books (s.submitTask cfg hd) := by
  have hrest : ∀ {p : Prop}, s.pc.executes = false → p := by
    intro p hne
    rw [hexec] at hne
    cases hne
  unfold State.submitTask
  split_ifs
  · exact { h with resting := hrest }
  · exact h
  · exact { h with resting := hrest }

theorem Books.act {a : Action} (h : Books s) (hcalls : s.calls ≠ [])
    (hs : act cfg s a = some s') : Books s' := by
  -- The worker executes a task, so it is not where the counts are compared.
  have hexec := h.executes hcalls
  have hawake : ¬ (s.pc = .waitEventfd ∨ s.pc = .peek) := by
    rintro (heq | heq) <;> rw [heq] at hexec <;> cases hexec
  have hbusy : ¬ (s.pc = .ready ∨ s.pc = .stopCb ∨ s.pc = .stopCbWake) := by
    rintro (heq | heq | heq) <;> rw [heq] at hexec <;> cases hexec
  have hledger := h.ledger
  cases a with
  | submit hd =>
    simp only [Context.act, Option.some.injEq] at hs
    subst hs
    exact h.submitTask hexec
  | prepareIo =>
    obtain ⟨_, ⟨⟩⟩ := Option.ite_none_right_eq_some.mp hs
    refine { h with
      ledger := ?_
      submitted := fun hp => absurd hp hawake
      idle := fun hp => absurd hp hbusy }
    dsimp only
    omega
  | earlySubmit num =>
    obtain ⟨⟨_, hnum⟩, ⟨⟩⟩ := Option.ite_none_right_eq_some.mp hs
    refine { h with ledger := ?_ }
    dsimp only
    omega
  | registerWait =>
    simp only [Context.act, Option.some.injEq] at hs
    subst hs
    exact { h with }
  | unregisterWait =>
    obtain ⟨_, ⟨⟩⟩ := Option.ite_none_right_eq_some.mp hs
    exact { h with }

theorem Books.run {num : Nat} (h : Books s) (hloop : s.inLoop)
    (hs : runStep cfg s num s.pc = some s') : Books s' := by
  have hledger := h.ledger
  cases runStep_cases hs with
  | exit | enter | sample | worked | waits | back | stopped | peekNone =>
    exact h.goto_plain hloop rfl
  | pop =>
    exact { h with
      batch := fun _ _ hne => by cases hne
      submitted := fun hne => by simp at hne
      idle := fun hne => by simp at hne
      resting := fun hne => by cases hne }
  | empty _ hempty =>
    exact h.goto hloop (fun _ _ hne => by cases hne) (fun hne => by simp at hne)
      fun _ => hempty.2
  | idle hp =>
    exact h.goto hloop (fun _ _ hne => by cases hne) (fun hne => by simp at hne)
      fun _ => h.idle (.inl hp)
  | stopSelf =>
    have hgoto : Books (s.goto .doIoSubmit) := h.goto_plain hloop rfl
    exact { hgoto with }
  | stopWake hp hu =>
    obtain ⟨c, hc, rfl⟩ := wakeUp_frame hu
    exact { h with
      signalled := by dsimp only [State.goto]; omega
      batch := fun _ _ hne => by cases hne
      submitted := fun hne => by simp [State.goto] at hne
      idle := fun _ => h.idle (.inr (.inr hp))
      resting := fun _ => hloop }
  | submit _ hnum =>
    exact { h with
      ledger := by dsimp only; omega
      batch := fun _ _ hne => by cases hne
      submitted := fun _ => rfl
      idle := fun hne => by simp at hne
      resting := fun _ => hloop }
  | submitNone _ hnone =>
    exact h.goto hloop (fun _ _ hne => by cases hne) (fun _ => hnone) fun hne => by simp at hne
  | readCqe hp | read hp =>
    have hsubmitted := h.submitted (.inl hp)
    exact { h with
      signalled := by simp
      batch := fun _ _ hne => by cases hne
      submitted := fun _ => hsubmitted
      idle := fun hne => by simp at hne
      resting := fun _ => hloop }
  | peek _ hnum =>
    refine h.goto hloop ?_ (fun hne => by simp at hne) fun hne => by simp at hne
    rintro _ _ ⟨⟩
    exact hnum
  | @handled n hp =>
    have hbatch := h.batch 0 n hp
    exact { h with
      ledger := by dsimp only; omega
      batch := fun _ _ hne => by cases hne
      submitted := fun hne => by simp at hne
      idle := fun hne => by simp at hne
      resting := fun _ => hloop }

theorem Books.step {a : Label} (h : Books s) (hs : step cfg s a = some s') : Books s' := by
  cases step_cases hs with
  | start hp => exact h.goto_plain (h.resting (by rw [hp]; rfl)) rfl
  | run hloop hrun => exact h.run hloop hrun
  | stopImpl hp =>
    have hloop := h.resting (by rw [hp]; rfl)
    exact { h with
      batch := fun _ _ hne => by cases hne
      submitted := fun hne => by simp at hne
      idle := fun _ => h.idle (.inr (.inl hp))
      resting := fun _ => hloop }
  | @callback _ left num hp hloop =>
    have hgoto : Books (s.goto (.handle left num)) := by
      refine h.goto hloop ?_ (fun hne => by simp at hne) fun hne => by simp at hne
      rintro _ _ ⟨⟩
      exact h.batch _ _ hp
    exact hgoto.submitTask rfl
  | act hcalls _ hact => exact h.act hcalls hact
  | wakeUp _ hwrite =>
    obtain ⟨c, hc, rfl⟩ := wakeUp_frame hwrite
    exact { h with
      signalled := by dsimp only; omega
      resting := fun hne => ⟨(h.resting hne).1, rfl⟩ }
  | leave _ hcalls =>
    refine { h with resting := fun hne => ?_ }
    have hnil := (h.resting hne).1
    rw [hcalls] at hnil
    cases hnil
  | write _ hwrite | writeStop _ hwrite =>
    obtain ⟨c, hc, rfl⟩ := wakeUp_frame hwrite
    exact { h with signalled := by dsimp only; omega }
  | push | requestStop | unregisterWait => exact { h with }
  | complete hpos =>
    have hledger := h.ledger
    refine { h with ledger := ?_, batch := fun left num hp => ?_ }
    · dsimp only
      omega
    · obtain ⟨hcq, hrunning⟩ := h.batch left num hp
      exact ⟨Nat.le_succ_of_le hcq, hrunning⟩
  | signal => exact { h with signalled := by dsimp only; omega }

end Steps

theorem books_of_reachable {cfg : Config} {s : State} (h : (machine cfg).Reachable s) :
    Books s := by
  refine h.invariant (I := Books) (fun s h0 => ?_) fun s a s' _ hb hs => hb.step hs
  rw [show s = newState from h0]
  exact {
    signalled := Iff.rfl
    ledger := rfl
    batch := fun _ _ hne => by cases hne
    submitted := fun hne => by simp [newState] at hne
    idle := fun hne => by simp [newState] at hne
    resting := fun _ => ⟨rfl, rfl⟩ }

end SheepCoro.Context
