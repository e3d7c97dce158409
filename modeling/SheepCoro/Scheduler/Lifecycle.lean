import SheepCoro.Scheduler.Model
import SheepCoro.Context.Standalone
import SheepCoro.Lib.History
import SheepCoro.Lib.Update

/-!
# The worker threads come and go

`start_impl` creates the threads one after the other.  In `context::start` the
thread exists before the pointer to it is stored in `m_job`, so the worker may
be far into `context::run` by then.  At the other end the worker closes the
eventfd of its context in `deinit`.  `stop_impl` uses both: `notify_stop` goes
through `m_job` to request the stop and then writes to the eventfd.

The machine puts this around the workers of `SheepCoro.Scheduler`.  The step
of that machine in which `stop_impl` comes to a context is the call of
`request_stop`; the call of `wake_up` is a step of its own behind it.

Nothing makes `stop_impl` wait for `start_impl`, and nothing makes a worker
wait for a `stop_impl` call that has still to write to its eventfd.  Both go
wrong (`stop_impl_touches_dead`).  `Timely` is the condition that they do not,
and `stop_impl_touches_live` is about the runs that meet it.

A context without a scheduler has only its own worker, and its default
callback only uses `m_job`.
-/

namespace SheepCoro.Lifecycle

open Lib

/-- Where the thread that calls `start_impl` is. -/
inductive StartPc
  /-- About to create the thread of context `i`. -/
  | create (i : Nat)
  /-- About to store `m_job` of context `i`. -/
  | assign (i : Nat)
deriving DecidableEq

/-- The contexts whose `start()` has returned are the ones below. -/
def StartPc.started : StartPc → Nat
  | .create i | .assign i => i

/-- Where a worker thread is. -/
inductive Thread
  /-- Not created yet. -/
  | absent
  /-- About to call `init`.  The eventfd is open since the constructor of
  `uring_proxy`. -/
  | init
  | run
  /-- After `deinit`, which closes the eventfd. -/
  | done
deriving DecidableEq

structure State (n : Nat) where
  sched : Scheduler.State n
  start : StartPc
  thread : Fin n → Thread
  /-- `m_job` points to a thread object. -/
  job : Fin n → Bool
  /-- The context whose `notify_stop` a worker is in, about to call
  `wake_up`. -/
  waking : Fin n → Option (Fin n)

variable {n : Nat}

def workerOf : Scheduler.Label n → Fin n
  | .run w _ | .execOne w _ | .callback w _ | .act w _ | .wake w _ | .submitStep w | .leave w => w

/-- The context on which a step calls `request_stop` in `stop_impl`. -/
def notified (s : Scheduler.State n) : Scheduler.Label n → Option (Fin n)
  | .run w _ =>
    match s.pc w with
    | .stopImpl i => if hi : i < n then some ⟨i, hi⟩ else none
    | _ => none
  | _ => none

inductive Label (n : Nat)
  /-- `start_impl` moves on. -/
  | start
  /-- The thread of worker `w` calls `init`. -/
  | init (w : Fin n)
  /-- A worker moves on in `context::run`. -/
  | sched (a : Scheduler.Label n)
  /-- Worker `w` calls `wake_up` in `notify_stop`. -/
  | wakeUp (w : Fin n)
  /-- The thread of worker `w` calls `deinit`. -/
  | deinit (w : Fin n)

def step [NeZero n] (cfg : Scheduler.Config) (s : State n) : Label n → Option (State n)
  | .start =>
    match s.start with
    | .create i =>
      if hi : i < n then
        some { s with
          thread := Function.update s.thread ⟨i, hi⟩ .init
          start := .assign i }
      else none
    | .assign i =>
      if hi : i < n then
        some { s with job := Function.update s.job ⟨i, hi⟩ true, start := .create (i + 1) }
      else none
  | .init w =>
    if s.thread w = .init then some { s with thread := Function.update s.thread w .run }
    else none
  | .sched a =>
    if s.thread (workerOf a) = .run ∧ s.waking (workerOf a) = none then
      (Scheduler.step cfg s.sched a).map fun sched => { s with
        sched := sched
        waking := Function.update s.waking (workerOf a) (notified s.sched a) }
    else none
  | .wakeUp w =>
    match s.waking w with
    | some _ => some { s with waking := Function.update s.waking w none }
    | none => none
  | .deinit w =>
    if s.thread w = .run ∧ s.sched.pc w = .exited then
      some { s with thread := Function.update s.thread w .done }
    else none

/-- Before `start_impl`. -/
structure Init (s : State n) : Prop where
  sched : Scheduler.Init s.sched
  start : s.start = .create 0
  thread : ∀ i, s.thread i = .absent
  job : ∀ i, s.job i = false
  waking : ∀ w, s.waking w = none

def machine (n : Nat) [NeZero n] (cfg : Scheduler.Config) : Machine (State n) (Label n) where
  init := Init
  step := step cfg

/-- A step calls `request_stop` or `wake_up` on context `i`, in
`notify_stop`. -/
def Touches (s : State n) (i : Fin n) : Label n → Prop
  | .sched a => notified s.sched a = some i
  | .wakeUp w => s.waking w = some i
  | .start | .init _ | .deinit _ => False

/-- `m_job` was stored, and the eventfd is open. -/
structure Live (s : State n) (i : Fin n) : Prop where
  job : s.job i = true
  thread : s.thread i = .run

/-- A `stop_impl` call at this position has still to come to context `i`. -/
def beforeNotify (i : Fin n) : Scheduler.RunPc → Bool
  | .stopImpl k => k ≤ i
  | _ => false

/-- The `stop_impl` call of worker `v` has still to touch context `i`. -/
def Ahead (s : State n) (v i : Fin n) : Prop :=
  s.waking v = some i ∨ beforeNotify i (s.sched.pc v) = true

/-- The stop callback of worker `w` is about to use the token up. -/
def exhausts (s : Scheduler.State n) (w : Fin n) : Bool :=
  match s.pc w with
  | .fetchSub cnt => s.stopToken = cnt
  | _ => false

/-- The condition on a step.  When a stop callback goes on to `stop_impl`,
`start_impl` has returned and every worker is between its `init` and its
`deinit`.  A worker calls `deinit` when no `stop_impl` call has still to touch
its context. -/
def Timely (s : State n) : Label n → Prop
  | .sched (.run w _) => exhausts s.sched w = true →
      s.start = .create n ∧ ∀ i, s.thread i = .run
  | .deinit w => ∀ v, ¬ Ahead s v w
  | _ => True

instance (s : State n) (i : Fin n) : DecidablePred (Touches s i)
  | .sched _ | .wakeUp _ => inferInstanceAs (Decidable (_ = _))
  | .start | .init _ | .deinit _ => isFalse id

instance (s : State n) (v i : Fin n) : Decidable (Ahead s v i) :=
  inferInstanceAs (Decidable (_ ∨ _))

instance (s : State n) : DecidablePred (Timely s)
  | .sched (.run ..) => inferInstanceAs (Decidable (_ → _))
  | .deinit _ => inferInstanceAs (Decidable (∀ _, _))
  | .sched (.execOne ..) | .sched (.callback ..) | .sched (.act ..) | .sched (.wake ..)
  | .sched (.submitStep ..) | .sched (.leave ..) | .start | .init _ | .wakeUp _ => isTrue trivial

/-! ## Positions in `stop_impl` -/

section Scheduler

variable [NeZero n] {cfg : Scheduler.Config} {s s' : Scheduler.State n} {a : Scheduler.Label n}

omit [NeZero n] in
theorem submitTask_pc (s : Scheduler.State n) (w e : Fin n) (c : Nat) :
    (s.submitTask cfg w e c).pc = s.pc := by
  unfold Scheduler.State.submitTask
  split_ifs <;> rfl

omit [NeZero n] in
theorem act_pc {w : Fin n} {x : Scheduler.Exec n} {rest : List (Scheduler.Exec n)}
    {b : Scheduler.Action} (hs : Scheduler.act s w x rest b = some s') : s'.pc = s.pc := by
  cases b with
  | unregister =>
    simp only [Scheduler.act] at hs
    split at hs <;> cases hs
    rfl
  | register | park | startIo | finish | submit =>
    obtain ⟨_, ⟨⟩⟩ := Option.ite_none_right_eq_some.mp hs
    rfl

/-- A worker gets to a position in `stop_impl` from the one before it, or from
the `fetch_sub` that uses the token up. -/
theorem step_stopImpl {v : Fin n} {k : Nat} (hs : Scheduler.step cfg s a = some s')
    (hk : s'.pc v = .stopImpl k) :
    s.pc v = .stopImpl k ∨ ∃ num, a = .run v num ∧
      ((∃ cnt : Nat, s.pc v = .fetchSub cnt ∧ s.stopToken = cnt) ∨
        ∃ j, s.pc v = .stopImpl j ∧ k = j + 1) := by
  cases Scheduler.step_cases hs with
  | @run w num _ _ hrun =>
    cases Scheduler.runStep_cases hrun with
    | @last cnt hpc htoken =>
      rcases update_eq_iff.mp hk with ⟨rfl, -⟩ | ⟨_, hold⟩
      · exact .inr ⟨num, rfl, .inl ⟨cnt, hpc, htoken⟩⟩
      · exact .inl hold
    | @notify i hpc hi =>
      rcases update_eq_iff.mp hk with ⟨rfl, heq⟩ | ⟨_, hold⟩
      · cases heq
        exact .inr ⟨num, rfl, .inr ⟨i, hpc, rfl⟩⟩
      · exact .inl hold
    | exit | enter | worked | empty | waits | idle | back | fetchAnd | fetchSub | notified | poll
    | reap => exact .inl (of_update_eq hk (by simp))
  | execOne => exact .inl (of_update_eq hk (by simp))
  | callback =>
    rw [submitTask_pc] at hk
    exact .inl (of_update_eq hk (by simp))
  | act _ _ _ _ hact =>
    rw [act_pc hact] at hk
    exact .inl hk
  | wake =>
    rw [submitTask_pc] at hk
    exact .inl hk
  | @submitStep _ _ pc =>
    cases pc with
    | push t =>
      simp only [Scheduler.submitStep, submitTask_pc] at hk
      exact .inl hk
    | dispatch | fetchOr | fetchAdd => exact .inl hk
  | leave => exact .inl hk

end Scheduler

/-! ## What a `stop_impl` call can rely on -/

section Steps

variable [NeZero n] {cfg : Scheduler.Config} {s s' : State n} {a : Label n} {i v : Fin n}

section

omit [NeZero n]

theorem beforeNotify_iff {pc : Scheduler.RunPc} :
    beforeNotify i pc = true ↔ ∃ k, pc = .stopImpl k ∧ k ≤ i := by
  cases pc <;> simp [beforeNotify]

theorem notified_iff {b : Scheduler.Label n} {s : Scheduler.State n} :
    notified s b = some i ↔ ∃ num, b = .run (workerOf b) num ∧ s.pc (workerOf b) = .stopImpl i := by
  cases b with
  | run w num =>
    simp only [notified, workerOf, Scheduler.Label.run.injEq, true_and, exists_eq_left']
    cases hpc : s.pc w with
    | stopImpl k =>
      simp only [Option.dite_none_right_eq_some, Option.some.injEq, Scheduler.RunPc.stopImpl.injEq]
      constructor
      · rintro ⟨_, rfl⟩
        rfl
      · intro hk
        exact ⟨hk ▸ i.isLt, Fin.ext hk⟩
    | loop | work | emptyWaitTask | ready | fetchAnd | fetchSub | poll | callbacks | exited => simp
  | execOne | callback | act | wake | submitStep | leave => simp [notified, workerOf]

structure Inv (s : State n) : Prop where
  job_iff : ∀ i : Fin n, s.job i = true ↔ (i : Nat) < s.start.started
  ahead : ∀ v i, Ahead s v i → Live s i

/-- What a step touches, the `stop_impl` call of a worker had ahead. -/
theorem ahead_of_touches (h : Touches s i a) : ∃ v, Ahead s v i := by
  cases a with
  | sched b =>
    obtain ⟨num, -, hpc⟩ := notified_iff.mp h
    exact ⟨workerOf b, .inr (beforeNotify_iff.mpr ⟨i, hpc, le_refl _⟩)⟩
  | wakeUp w => exact ⟨w, .inl h⟩
  | start | init | deinit => exact h.elim

end

/-- A worker moves on. -/
theorem Inv.sched {b : Scheduler.Label n} (h : Inv s) (hguard : Timely s (.sched b))
    (hs : step cfg s (.sched b) = some s') : Inv s' := by
  obtain ⟨-, hs⟩ := Option.ite_none_right_eq_some.mp hs
  obtain ⟨sched, hsched, rfl⟩ := Option.map_eq_some_iff.mp hs
  refine ⟨h.job_iff, fun v i hahead => ?_⟩
  have hlive : Live s i := by
    rcases hahead with hwaking | hpc
    · rcases update_eq_iff.mp hwaking with ⟨rfl, hnotified⟩ | ⟨_, hold⟩
      · obtain ⟨w, hw⟩ := ahead_of_touches (a := .sched b) hnotified
        exact h.ahead w i hw
      · exact h.ahead v i (.inl hold)
    · obtain ⟨k, hk, hki⟩ := beforeNotify_iff.mp hpc
      rcases step_stopImpl hsched hk with hold | ⟨num, rfl, hcase⟩
      · exact h.ahead v i (.inr (beforeNotify_iff.mpr ⟨k, hold, hki⟩))
      · rcases hcase with ⟨cnt, hfetch, htoken⟩ | ⟨j, hj, rfl⟩
        · -- The token is used up, and all contexts are ahead.
          obtain ⟨hstart, hrun⟩ := hguard (by simp [exhausts, hfetch, htoken])
          refine ⟨(h.job_iff i).mpr ?_, hrun i⟩
          rw [hstart]
          exact i.isLt
        · exact h.ahead v i (.inr (beforeNotify_iff.mpr ⟨j, hj, by omega⟩))
  exact ⟨hlive.job, hlive.thread⟩

/-- `start_impl` moves on.  A context whose thread it creates is not ahead of
anybody. -/
theorem Inv.start (h : Inv s) (hs : step cfg s .start = some s') : Inv s' := by
  simp only [Lifecycle.step] at hs
  split at hs
  · next k hk =>
    obtain ⟨hkn, hs⟩ := Option.dite_none_right_eq_some.mp hs
    cases hs
    refine ⟨fun i => ?_, fun v i hahead => ?_⟩
    · rw [h.job_iff i, hk]
      rfl
    · obtain ⟨hjob, hthread⟩ := h.ahead v i hahead
      refine ⟨hjob, ?_⟩
      have hlt := (h.job_iff i).mp hjob
      rw [hk] at hlt
      have hne : i ≠ ⟨k, hkn⟩ := by
        rintro rfl
        exact Nat.lt_irrefl k hlt
      show Function.update s.thread ⟨k, hkn⟩ .init i = .run
      rw [Function.update_of_ne hne]
      exact hthread
  · next k hk =>
    obtain ⟨hkn, hs⟩ := Option.dite_none_right_eq_some.mp hs
    cases hs
    refine ⟨fun i => ?_, fun v i hahead => ?_⟩
    · show Function.update s.job ⟨k, hkn⟩ true i = true ↔ (i : Nat) < k + 1
      by_cases hi : i = ⟨k, hkn⟩
      · subst hi
        simp
      · have hne : (i : Nat) ≠ k := fun heq => hi (Fin.ext heq)
        rw [Function.update_of_ne hi, h.job_iff i, hk]
        show (i : Nat) < k ↔ _
        omega
    · obtain ⟨hjob, hthread⟩ := h.ahead v i hahead
      exact ⟨update_eq_of (fun _ => rfl) fun _ => hjob, hthread⟩

theorem Inv.step (h : Inv s) (hguard : Timely s a) (hs : Lifecycle.step cfg s a = some s') :
    Inv s' := by
  cases a with
  | start => exact h.start hs
  | sched b => exact h.sched hguard hs
  | init w =>
    obtain ⟨_, ⟨⟩⟩ := Option.ite_none_right_eq_some.mp hs
    refine ⟨h.job_iff, fun v i hahead => ?_⟩
    obtain ⟨hjob, hthread⟩ := h.ahead v i hahead
    exact ⟨hjob, update_eq_of (fun _ => rfl) fun _ => hthread⟩
  | wakeUp w =>
    simp only [Lifecycle.step] at hs
    split at hs
    · cases hs
      refine ⟨h.job_iff, fun v i hahead => ?_⟩
      have hbefore : Ahead s v i := by
        rcases hahead with hwaking | hpc
        · exact .inl (of_update_eq hwaking (by simp))
        · exact .inr hpc
      obtain ⟨hjob, hthread⟩ := h.ahead v i hbefore
      exact ⟨hjob, hthread⟩
    · cases hs
  | deinit w =>
    obtain ⟨_, ⟨⟩⟩ := Option.ite_none_right_eq_some.mp hs
    refine ⟨h.job_iff, fun v i hahead => ?_⟩
    obtain ⟨hjob, hthread⟩ := h.ahead v i hahead
    have hne : i ≠ w := by
      rintro rfl
      exact hguard v hahead
    exact ⟨hjob, update_eq_of (fun heq => absurd heq hne) fun _ => hthread⟩

omit [NeZero n] in
theorem Init.inv (h : Init s) : Inv s := by
  refine ⟨fun i => ?_, fun v i hahead => ?_⟩
  · simp [h.job i, h.start, StartPc.started]
  · rcases hahead with hwaking | hpc
    · rw [h.waking v] at hwaking
      cases hwaking
    · rw [h.sched.pc v] at hpc
      cases hpc

theorem inv_of_reachableUnder (h : (machine n cfg).ReachableUnder Timely s) : Inv s :=
  h.invariant (fun _ h₀ => Init.inv h₀) fun _ _ _ _ hinv hguard hs => hinv.step hguard hs

end Steps

/-! ## A context without a scheduler -/

/-- A context with the thread that calls `start()`. -/
structure Solo where
  ctx : Context.State
  /-- `m_job` points to a thread object. -/
  job : Bool
  /-- The worker has executed `deinit`. -/
  deinit : Bool

inductive SoloLabel
  | ctx (a : Context.Label)
  /-- `start()` stores `m_job`. -/
  | assign
  | deinit

def soloStep (cfg : Context.Config) (s : Solo) : SoloLabel → Option Solo
  | .ctx a => (Context.step cfg s.ctx a).map fun ctx => { s with ctx := ctx }
  | .assign =>
    if s.ctx.pc ≠ .notStarted ∧ s.job = false then some { s with job := true } else none
  | .deinit => if s.ctx.pc = .exited then some { s with deinit := true } else none

def solo (cfg : Context.Config) : Machine Solo SoloLabel where
  init s := s = ⟨Context.newState, false, false⟩
  step := soloStep cfg

/-- The worker is in the default stop callback, about to call `request_stop`
through `m_job`. -/
def SoloTouches (s : Solo) : SoloLabel → Prop
  | .ctx (.run _) => s.ctx.pc = .stopCb
  | _ => False

/-- The condition on a step.  The worker does not begin its loop before
`start()` has stored `m_job`. -/
def SoloTimely (s : Solo) : SoloLabel → Prop
  | .ctx (.run _) => s.ctx.pc = .loop → s.job = true
  | _ => True

instance (s : Solo) : DecidablePred (SoloTimely s)
  | .ctx (.run _) => inferInstanceAs (Decidable (_ → _))
  | .ctx .start | .ctx .stopImpl | .ctx (.callback _) | .ctx (.act _) | .ctx .wakeUp | .ctx .leave
  | .ctx (.push _) | .ctx .write | .ctx .requestStop | .ctx .writeStop | .ctx .unregisterWait
  | .ctx .complete | .ctx .signal | .assign | .deinit => isTrue trivial

structure SoloInv (s : Solo) : Prop where
  job : s.ctx.pc ≠ .notStarted → s.ctx.pc ≠ .loop → s.job = true
  deinit : s.deinit = true → s.ctx.pc = .exited

/-- How the worker of a context without a scheduler moves. -/
theorem ctx_step_pc {cfg : Context.Config} {s s' : Context.State} {a : Context.Label}
    (hst : cfg.scheduled = false) (hs : Context.step cfg s a = some s') :
    s'.pc = s.pc ∨ s.pc ≠ .exited ∧
      (s'.pc = .loop ∨ (s.pc = .loop ∧ ∃ num, a = .run num) ∨
        s.pc ≠ .notStarted ∧ s.pc ≠ .loop) := by
  cases Context.step_cases hs with
  | start hpc => exact .inr ⟨by simp [hpc], .inl rfl⟩
  | @run num _ _ hrun =>
    by_cases hloop : s.pc = .loop
    · exact .inr ⟨by simp [hloop], .inr (.inl ⟨hloop, num, rfl⟩)⟩
    · refine .inr ⟨fun hexit => ?_, .inr (.inr ⟨fun hnot => ?_, hloop⟩)⟩
      · rw [hexit] at hrun
        cases hrun
      · rw [hnot] at hrun
        cases hrun
  | stopImpl _ hsched | requestStop hsched | unregisterWait hsched => simp [hst] at hsched
  | callback hpc => exact .inr ⟨by simp [hpc], .inr (.inr ⟨by simp [hpc], by simp [hpc]⟩)⟩
  | act _ _ hact => exact .inl (Context.act_frame hact).1
  | wakeUp _ hwrite | write _ hwrite | writeStop _ hwrite =>
    obtain ⟨_, _, rfl⟩ := Context.wakeUp_frame hwrite
    exact .inl rfl
  | leave | push | complete | signal => exact .inl rfl

theorem SoloInv.step {cfg : Context.Config} {s s' : Solo} {a : SoloLabel}
    (hst : cfg.scheduled = false) (h : SoloInv s) (hguard : SoloTimely s a)
    (hs : soloStep cfg s a = some s') : SoloInv s' := by
  cases a with
  | ctx b =>
    obtain ⟨ctx, hctx, rfl⟩ := Option.map_eq_some_iff.mp hs
    rcases ctx_step_pc hst hctx with hsame | ⟨hexit, hmoves⟩
    · exact ⟨hsame ▸ h.job, hsame ▸ h.deinit⟩
    · refine ⟨fun _ hloop => ?_, fun hdeinit => absurd (h.deinit hdeinit) hexit⟩
      rcases hmoves with hback | ⟨hfirst, num, rfl⟩ | ⟨hnot, hne⟩
      · exact absurd hback hloop
      · exact hguard hfirst
      · exact h.job hnot hne
  | assign =>
    obtain ⟨_, ⟨⟩⟩ := Option.ite_none_right_eq_some.mp hs
    exact ⟨fun _ _ => rfl, h.deinit⟩
  | deinit =>
    obtain ⟨hexit, ⟨⟩⟩ := Option.ite_none_right_eq_some.mp hs
    exact ⟨h.job, fun _ => hexit⟩

theorem soloInv_of_reachableUnder {cfg : Context.Config} {s : Solo}
    (hst : cfg.scheduled = false) (h : (solo cfg).ReachableUnder SoloTimely s) : SoloInv s := by
  refine h.invariant (fun s h₀ => ?_) fun _ _ _ _ hinv hguard hs => hinv.step hst hguard hs
  cases h₀
  exact ⟨fun hne => absurd rfl hne, nofun⟩

/-- In every run that meets the condition, for every number of contexts,
`stop_impl` and the default stop callback use `m_job` and the eventfd of a
context only between the return of its `start()` and the `deinit` of its
worker. -/
theorem stop_impl_touches_live (n : Nat) [NeZero n] (cfg : Scheduler.Config)
    (alone : Context.Config) (hst : alone.scheduled = false) :
    (∀ (s s' : State n) (a : Label n) (i : Fin n), (machine n cfg).ReachableUnder Timely s →
      step cfg s a = some s' → Touches s i a → s.job i = true ∧ s.thread i = .run) ∧
    ∀ (s s' : Solo) (a : SoloLabel), (solo alone).ReachableUnder SoloTimely s →
      soloStep alone s a = some s' → SoloTouches s a → s.job = true ∧ s.deinit = false := by
  refine ⟨fun s s' a i hr _ htouch => ?_, fun s s' a hr _ htouch => ?_⟩
  · obtain ⟨v, hahead⟩ := ahead_of_touches htouch
    obtain ⟨hjob, hthread⟩ := (inv_of_reachableUnder hr).ahead v i hahead
    exact ⟨hjob, hthread⟩
  · have hinv := soloInv_of_reachableUnder hst hr
    have hpc : s.ctx.pc = .stopCb := by
      cases a with
      | ctx b =>
        cases b with
        | run => exact htouch
        | _ => exact htouch.elim
      | assign | deinit => exact htouch.elim
    refine ⟨hinv.job (by simp [hpc]) (by simp [hpc]), ?_⟩
    by_contra hdeinit
    have hexit := hinv.deinit (by simpa using hdeinit)
    rw [hpc] at hexit
    cases hexit

/-- `n` contexts without a task, before `start_impl`. -/
def newState (n : Nat) : State n where
  sched := {
    stopFlag := fun _ => 1
    stopToken := n
    cur := 0
    taskQueue := fun _ => []
    recursiveDepth := fun _ => 0
    numWaitTask := fun _ => 0
    numIoWaitSubmit := fun _ => 0
    numIoRunning := fun _ => 0
    stopRequested := fun _ => false
    pc := fun _ => .loop
    stack := fun _ => []
    submission := fun _ => none
    place := fun _ => .fresh
    registered := fun _ => none }
  start := .create 0
  thread _ := .absent
  job _ := false
  waking _ := none

theorem init_newState (n : Nat) : Init (newState n) :=
  ⟨⟨fun _ => rfl, rfl, fun _ => rfl, fun _ => rfl, fun _ => rfl, fun _ => rfl, fun _ => rfl,
    fun _ => rfl, fun _ => rfl, fun _ => .inl rfl, fun _ => rfl⟩, rfl, fun _ => rfl, fun _ => rfl,
    fun _ => rfl⟩

/-- Worker `w` moves on `k` times. -/
def runs (w : Fin n) (k : Nat) : List (Label n) :=
  List.replicate k (.sched (.run w 0))

/-- Both contexts are started, and both workers find nothing to do. -/
def startTwo : List (Label 2) :=
  List.replicate 4 .start ++ (List.finRange 2).map .init ++
    (List.finRange 2).flatMap fun w => runs w 6

theorem stop_impl_touches_live_two :
    (∃ s, (machine 2 ⟨16, 4⟩).ReachableUnder Timely s ∧ Touches s 0 (.wakeUp 1) ∧
      s.job 0 = true ∧ s.thread 0 = .run) ∧
    ∃ s, (solo ⟨16, 4, 8, false⟩).ReachableUnder SoloTimely s ∧ s.ctx.pc = .stopCb ∧
      s.job = true ∧ s.deinit = false := by
  obtain ⟨hsched, halone⟩ := stop_impl_touches_live 2 ⟨16, 4⟩ ⟨16, 4, 8, false⟩ rfl
  constructor
  · have hrun : ((machine 2 ⟨16, 4⟩).runUnder Timely (newState 2) (startTwo ++ runs 1 1)).map
        (fun s => decide (Touches s 0 (.wakeUp 1) ∧
          ((machine 2 ⟨16, 4⟩).step s (.wakeUp 1)).isSome)) = some true := by decide
    obtain ⟨s, hs, htest⟩ := Machine.reachableUnder_of_run (init_newState 2) hrun
    obtain ⟨htouch, hsome⟩ := of_decide_eq_true htest
    obtain ⟨s', hs'⟩ := Option.isSome_iff_exists.mp hsome
    exact ⟨s, hs, htouch, hsched s s' (.wakeUp 1) 0 hs hs' htouch⟩
  · have hrun : ((solo ⟨16, 4, 8, false⟩).runUnder SoloTimely ⟨Context.newState, false, false⟩
        (.ctx .start :: .assign :: List.replicate 5 (.ctx (.run 0)))).map
        (fun s => decide (s.ctx.pc = .stopCb ∧
          ((solo ⟨16, 4, 8, false⟩).step s (.ctx (.run 0))).isSome)) = some true := by decide
    obtain ⟨s, hs, htest⟩ := Machine.reachableUnder_of_run rfl hrun
    obtain ⟨hpc, hsome⟩ := of_decide_eq_true htest
    obtain ⟨s', hs'⟩ := Option.isSome_iff_exists.mp hsome
    exact ⟨s, hs, hpc, halone s s' (.ctx (.run 0)) hs hs' hpc⟩

/-- Four ways in which a context is touched that is not there.  A worker is
done before `start()` has stored its `m_job`; a worker closes its eventfd
between `request_stop` and `wake_up`; a worker that has lowered its flag finds
the token used up by another one, which is gone by then; and a worker without a
scheduler is done before `start()` has stored its `m_job`. -/
theorem stop_impl_touches_dead :
    (∃ s, (machine 1 ⟨16, 4⟩).Reachable s ∧ Touches s 0 (.sched (.run 0 0)) ∧
      ((machine 1 ⟨16, 4⟩).step s (.sched (.run 0 0))).isSome ∧ s.job 0 = false) ∧
    (∃ s, (machine 2 ⟨16, 4⟩).Reachable s ∧ Touches s 0 (.wakeUp 1) ∧
      ((machine 2 ⟨16, 4⟩).step s (.wakeUp 1)).isSome ∧ s.thread 0 = .done) ∧
    (∃ s, (machine 2 ⟨16, 4⟩).Reachable s ∧ Touches s 1 (.sched (.run 0 0)) ∧
      ((machine 2 ⟨16, 4⟩).step s (.sched (.run 0 0))).isSome ∧ s.thread 1 = .done) ∧
    ∃ s, (solo ⟨16, 4, 8, false⟩).Reachable s ∧ SoloTouches s (.ctx (.run 0)) ∧
      ((solo ⟨16, 4, 8, false⟩).step s (.ctx (.run 0))).isSome ∧ s.job = false := by
  refine ⟨?_, ?_, ?_, ?_⟩
  · have hrun : ((machine 1 ⟨16, 4⟩).run (newState 1) ([.start, .init 0] ++ runs 0 6)).map
        (fun s => decide (Touches s 0 (.sched (.run 0 0)) ∧
          ((machine 1 ⟨16, 4⟩).step s (.sched (.run 0 0))).isSome ∧ s.job 0 = false)) =
        some true := by decide
    obtain ⟨s, hs, htest⟩ := Machine.reachable_of_run (init_newState 1) hrun
    exact ⟨s, hs, of_decide_eq_true htest⟩
  · have hrun : ((machine 2 ⟨16, 4⟩).run (newState 2)
        (startTwo ++ runs 1 1 ++ runs 0 3 ++ [.deinit 0])).map
        (fun s => decide (Touches s 0 (.wakeUp 1) ∧
          ((machine 2 ⟨16, 4⟩).step s (.wakeUp 1)).isSome ∧ s.thread 0 = .done)) =
        some true := by decide
    obtain ⟨s, hs, htest⟩ := Machine.reachable_of_run (init_newState 2) hrun
    exact ⟨s, hs, of_decide_eq_true htest⟩
  · have hrun : ((machine 2 ⟨16, 4⟩).run (newState 2)
        (List.replicate 4 .start ++ [.init 0, .init 1] ++ runs 0 13 ++ runs 1 7 ++ [.wakeUp 1] ++
          runs 1 1 ++ [.wakeUp 1] ++ runs 1 4 ++ [.deinit 1] ++ runs 0 2 ++ [.wakeUp 0])).map
        (fun s => decide (Touches s 1 (.sched (.run 0 0)) ∧
          ((machine 2 ⟨16, 4⟩).step s (.sched (.run 0 0))).isSome ∧ s.thread 1 = .done)) =
        some true := by decide
    obtain ⟨s, hs, htest⟩ := Machine.reachable_of_run (init_newState 2) hrun
    exact ⟨s, hs, of_decide_eq_true htest⟩
  · have hrun : ((solo ⟨16, 4, 8, false⟩).run ⟨Context.newState, false, false⟩
        (.ctx .start :: List.replicate 5 (.ctx (.run 0)))).map
        (fun s => decide (s.ctx.pc = .stopCb ∧
          ((solo ⟨16, 4, 8, false⟩).step s (.ctx (.run 0))).isSome ∧ s.job = false)) =
        some true := by decide
    obtain ⟨s, hs, htest⟩ := Machine.reachable_of_run rfl hrun
    obtain ⟨hpc, hsome, hjob⟩ := of_decide_eq_true htest
    exact ⟨s, hs, hpc, hsome, hjob⟩

end SheepCoro.Lifecycle
