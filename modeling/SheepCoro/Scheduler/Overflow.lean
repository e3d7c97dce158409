import SheepCoro.Scheduler.Whereabouts

/-!
# A full queue

`config.h.in` says what happens to a task that is submitted to a full queue
from a worker thread: it is executed directly.  `engine::submit_task` does so
up to a depth of `kMaxRecursiveDepth` inline calls of the same engine.  Beyond
it logs an error and returns, and the handle is gone: nobody has it any more
(`State.submitTask` moves it to `Place.ended`).

A call that executes the task inline returns when the `exec_task` call that it
made returns, which is when the coroutine has come to its next suspension or
to its end.
-/

namespace SheepCoro.Scheduler

open Lib

variable {n : Nat}

/-- The inline call of `submit_task` has not returned.  `base` are the calls
that were on the stack before. -/
def Pending (w e : Fin n) (c : Nat) (base : List (Exec n)) (s : State n) : Prop :=
  ∃ above x, s.stack w = above ++ x :: base ∧ x.coro = c ∧ x.inlineOf = some e

/-- In no run does the inline call return before the coroutine has been
executed up to its suspension. -/
def ExecutesBeforeReturn [NeZero n] (cfg : Config) (w e : Fin n) (c : Nat)
    (base : List (Exec n)) (s : State n) : Prop :=
  ∀ as t, (started n cfg).run s as = some t → Pending w e c base t ∨
    ∃ pre post u, as = pre ++ .leave w :: post ∧ (started n cfg).run s pre = some u ∧
      u.stack w = ⟨c, some e, true⟩ :: base

/-- The handle is queued, or it is executed before the call returns. -/
def Delivered [NeZero n] (cfg : Config) (s : State n) (w e : Fin n) (c : Nat)
    (s' : State n) : Prop :=
  c ∈ s'.taskQueue e ∨
    s'.stack w = ⟨c, some e, false⟩ :: s.stack w ∧
      ExecutesBeforeReturn cfg w e c (s.stack w) s'

section Steps

variable {cfg : Config} {s s' : State n} {w e : Fin n} {c : Nat}

/-- What a step does to the calls on a worker. -/
inductive StackStep (s : State n) (w : Fin n) (a : Label n) : List (Exec n) → Prop
  | still : StackStep s w a (s.stack w)
  | call (x : Exec n) : StackStep s w a (x :: s.stack w)
  | suspend {x : Exec n} {rest : List (Exec n)} (h : s.stack w = x :: rest) :
      StackStep s w a ({ x with leaving := true } :: rest)
  | leave {x : Exec n} {rest : List (Exec n)} (h : s.stack w = x :: rest)
      (hx : x.leaving = true) (ha : a = .leave w) : StackStep s w a rest

theorem StackStep.update {a : Label n} {v : Fin n} {xs : List (Exec n)}
    (h : w = v → StackStep s w a xs) : StackStep s w a (Function.update s.stack v xs w) := by
  by_cases hw : w = v
  · subst hw
    rw [Function.update_self]
    exact h rfl
  · rw [Function.update_of_ne hw]
    exact .still

theorem stackStep_submitTask {t : State n} {v : Fin n} {a : Label n} (ht : t.stack = s.stack) :
    StackStep s w a ((t.submitTask cfg v e c).stack w) := by
  unfold State.submitTask
  split_ifs
  · simp only [State.move, ht]
    exact .still
  · simp only [State.move, ht]
    exact .still
  · simp only [State.exec, State.move, ht]
    refine .update fun hv => ?_
    subst hv
    exact .call _

theorem stackStep_act {x : Exec n} {rest : List (Exec n)} {v : Fin n} {a : Action}
    (hstack : s.stack v = x :: rest) (hs : act s v x rest a = some s') :
    StackStep s w (.act v a) (s'.stack w) := by
  have hsuspend : StackStep s w (.act v a)
      (Function.update s.stack v ({ x with leaving := true } :: rest) w) := by
    refine .update fun hv => ?_
    subst hv
    exact .suspend hstack
  cases a with
  | register | submit =>
    obtain ⟨_, ⟨⟩⟩ := Option.ite_none_right_eq_some.mp hs
    exact .still
  | unregister =>
    simp only [act] at hs
    split at hs <;> cases hs
    exact .still
  | park | startIo | finish =>
    obtain ⟨_, ⟨⟩⟩ := Option.ite_none_right_eq_some.mp hs
    exact hsuspend

theorem step_stack [NeZero n] {a : Label n} (hs : step cfg s a = some s') :
    StackStep s w a (s'.stack w) := by
  cases step_cases hs with
  | run _ hrun =>
    rw [(runStep_frame hrun).2]
    exact .still
  | execOne =>
    refine .update fun hv => ?_
    subst hv
    exact .call _
  | callback => exact stackStep_submitTask rfl
  | act hstack _ _ _ hact => exact stackStep_act hstack hact
  | wake => exact stackStep_submitTask rfl
  | @submitStep _ _ pc =>
    cases pc with
    | dispatch | fetchOr | fetchAdd => exact .still
    | push t => exact stackStep_submitTask rfl
  | leave hstack hleaving =>
    refine .update fun hv => ?_
    subst hv
    exact .leave hstack hleaving rfl

/-- The inline call ends only when its `exec_task` returns. -/
theorem Pending.step [NeZero n] {base : List (Exec n)} {a : Label n}
    (h : Pending w e c base s) (hs : Scheduler.step cfg s a = some s') :
    Pending w e c base s' ∨ a = .leave w ∧ s.stack w = ⟨c, some e, true⟩ :: base := by
  obtain ⟨above, y, hstack, hcoro, hinline⟩ := h
  have hstep := step_stack (w := w) hs
  generalize hnew : s'.stack w = new at hstep
  cases hstep with
  | still => exact .inl ⟨above, y, hnew.trans hstack, hcoro, hinline⟩
  | call x =>
    refine .inl ⟨x :: above, y, ?_, hcoro, hinline⟩
    rw [hnew, hstack, List.cons_append]
  | @suspend x rest htop =>
    rw [hstack] at htop
    cases above with
    | nil =>
      cases htop
      exact .inl ⟨[], _, hnew, hcoro, hinline⟩
    | cons z zs =>
      cases htop
      exact .inl ⟨_ :: zs, y, hnew, hcoro, hinline⟩
  | @leave x rest htop hx ha =>
    rw [hstack] at htop
    cases above with
    | nil =>
      cases htop
      refine .inr ⟨ha, hstack.trans ?_⟩
      obtain ⟨coro, inlineOf, leaving⟩ := y
      cases hcoro
      cases hinline
      cases hx
      rfl
    | cons z zs =>
      cases htop
      exact .inl ⟨zs, y, hnew, hcoro, hinline⟩

end Steps

/-! ## Overload -/

section Overload

variable {cfg : Config} {s : State n} {w : Fin n} {c : Nat}

/-- The coroutine of the innermost call on `w` runs. -/
structure Runs (s : State n) (w : Fin n) : Prop where
  top : ∃ x rest, s.stack w = x :: rest ∧ x.leaving = false ∧ s.place x.coro = .running
  submission : s.submission w = none

/-- A call of `submit_task_impl` is about to push the new coroutine `c`; the
rest is as in `s`. -/
structure Pushes (s : State n) (w t : Fin n) (c : Nat) (u : State n) : Prop where
  submission : u.submission w = some ⟨c, .push t⟩
  taskQueue : u.taskQueue = s.taskQueue
  recursiveDepth : u.recursiveDepth = s.recursiveDepth
  stack : u.stack = s.stack
  place : u.place = Function.update s.place c .ready
  registered : u.registered = s.registered
  cur : u.cur = (s.cur + 1) % 2 ^ 64

theorem step_submitStep [NeZero n] (cfg : Config) {pc : SubmitPc n}
    (hsub : s.submission w = some ⟨c, pc⟩) :
    step cfg s (.submitStep w) = some (submitStep cfg s w c pc) := by
  simp [step, hsub]

/-- A coroutine that runs submits a new one, up to the push. -/
theorem Runs.pushes [NeZero n] (hr : (started n cfg).Reachable s) (h : Runs s w)
    (hc : s.place c = .fresh) :
    ∃ u, (started n cfg).Reachable u ∧ Pushes s w (Fin.ofNat n s.cur) c u := by
  obtain ⟨x, rest, hstack, hx, hplace⟩ := h.top
  let s₁ : State n := { s.move c .ready with
    submission := Function.update s.submission w (some ⟨c, .dispatch⟩) }
  have h₁ : step cfg s (.act w (.submit c)) = some s₁ := by
    simp [step, hstack, hx, hplace, h.submission, act, hc, s₁]
  have h₂ := step_submitStep cfg (s := s₁) (w := w) (Function.update_self ..)
  have h₃ := step_submitStep cfg (s := submitStep cfg s₁ w c .dispatch) (w := w)
    (Function.update_self ..)
  have h₄ := step_submitStep cfg (w := w)
    (s := submitStep cfg (submitStep cfg s₁ w c .dispatch) w c (.fetchOr (Fin.ofNat n s.cur)))
    (Function.update_self ..)
  have hr₁ : (started n cfg).Reachable s₁ := hr.next (a := .act w (.submit c)) h₁
  have hr₂ : (started n cfg).Reachable _ := hr₁.next (a := .submitStep w) h₂
  have hr₃ : (started n cfg).Reachable _ := hr₂.next (a := .submitStep w) h₃
  have hr₄ : (started n cfg).Reachable _ := hr₃.next (a := .submitStep w) h₄
  exact ⟨_, hr₄, Function.update_self .., rfl, rfl, rfl, rfl, rfl, rfl⟩

/-- The push itself. -/
theorem Pushes.step [NeZero n] {t : Fin n} {u : State n} (h : Pushes s w t c u)
    (cfg : Config) :
    Scheduler.step cfg u (.submitStep w) =
      some ({ u with submission := Function.update u.submission w none }.submitTask cfg w t c) :=
  step_submitStep cfg h.submission

/-- Worker `w` executes the queued coroutine `c` as its first one; the rest is
as in `s`. -/
structure Executes (s : State n) (w : Fin n) (c : Nat) (u : State n) : Prop where
  stack : u.stack = Function.update s.stack w [⟨c, none, false⟩]
  taskQueue : u.taskQueue = Function.update s.taskQueue w ((s.taskQueue w).erase c)
  place : u.place = Function.update s.place c .running
  submission : u.submission = s.submission
  registered : u.registered = s.registered
  recursiveDepth : u.recursiveDepth = s.recursiveDepth
  others : ∀ v, v ≠ w → u.pc v = s.pc v
  stopRequested : u.stopRequested = s.stopRequested
  cur : u.cur = s.cur

/-- The task that a worker has just begun runs. -/
theorem Executes.runs {u : State n} (h : Executes s w c u) (hnone : s.submission w = none) :
    Runs u w := by
  refine ⟨⟨⟨c, none, false⟩, [], ?_, rfl, ?_⟩, ?_⟩
  · rw [h.stack, Function.update_self]
  · rw [h.place]
    exact Function.update_self ..
  · rw [h.submission, hnone]

/-- The coroutine of `w` has submitted `c` to context `t`; the rest is as in
`s`. -/
structure Fills (s : State n) (w t : Fin n) (c : Nat) (u : State n) : Prop where
  runs : Runs u w
  taskQueue : u.taskQueue = Function.update s.taskQueue t (s.taskQueue t ++ [c])
  recursiveDepth : u.recursiveDepth = s.recursiveDepth
  place : ∀ d, d ≠ c → u.place d = s.place d
  registered : u.registered = s.registered
  cur : u.cur = (s.cur + 1) % 2 ^ 64

/-- The push into a queue that has room. -/
theorem Runs.fills [NeZero n] {t : Fin n} (hr : (started n cfg).Reachable s) (h : Runs s w)
    (hc : s.place c = .fresh) (ht : Fin.ofNat n s.cur = t)
    (hroom : (s.taskQueue t).length < cfg.queCap) :
    ∃ u, (started n cfg).Reachable u ∧ Fills s w t c u := by
  obtain ⟨u, hu, hpushes⟩ := h.pushes hr hc
  rw [ht] at hpushes
  have hroom' : (u.taskQueue t).length < cfg.queCap := by rwa [hpushes.taskQueue]
  have hstep := hpushes.step cfg
  simp only [State.submitTask, hroom', if_true] at hstep
  obtain ⟨x, rest, hstack, hx, hplace⟩ := h.top
  have hne : x.coro ≠ c := by
    intro heq
    rw [heq, hc] at hplace
    cases hplace
  refine ⟨_, hu.next (a := .submitStep w) hstep, ⟨⟨x, rest, ?_, hx, ?_⟩, ?_⟩, ?_, ?_,
    fun d hd => ?_, hpushes.registered, hpushes.cur⟩
  · simp [State.move, hpushes.stack, hstack]
  · simp [State.move, hpushes.place, hne, hplace]
  · simp [State.move]
  · simp [hpushes.taskQueue]
  · exact hpushes.recursiveDepth
  · simp [State.move, hpushes.place, hd]

/-- A scheduler of one context whose queue is full, `k` inline calls deep in
tasks that submit tasks. -/
structure Nested (cfg : Config) (k : Nat) (s : State 1) : Prop where
  reachable : (started 1 cfg).Reachable s
  runs : Runs s 0
  full : (s.taskQueue 0).length = cfg.queCap
  depth : s.recursiveDepth 0 = k
  fresh : ∃ m, ∀ c, m ≤ c → s.place c = .fresh

/-- The innermost task submits one more. -/
theorem Nested.pushes {k : Nat} {s : State 1} (h : Nested cfg k s) :
    ∃ u c m, (started 1 cfg).Reachable u ∧ Pushes s 0 0 c u ∧ c < m ∧
      ∀ d, m ≤ d → s.place d = .fresh := by
  obtain ⟨m, hm⟩ := h.fresh
  obtain ⟨u, hu, hpushes⟩ := h.runs.pushes h.reachable (hm m (Nat.le_refl m))
  have hzero : Fin.ofNat 1 s.cur = 0 := Subsingleton.elim _ _
  rw [hzero] at hpushes
  exact ⟨u, m, m + 1, hu, hpushes, Nat.lt_succ_self m, fun d hd => hm d (by omega)⟩

/-- It is executed inline. -/
theorem Nested.succ {k : Nat} {s : State 1} (h : Nested cfg k s)
    (hk : k < cfg.maxRecursiveDepth) : ∃ s', Nested cfg (k + 1) s' := by
  obtain ⟨u, c, m, hu, hpushes, hc, hm⟩ := h.pushes
  have hroom : ¬ (u.taskQueue 0).length < cfg.queCap := by
    rw [hpushes.taskQueue, h.full]
    omega
  have hlimit : ¬ cfg.maxRecursiveDepth ≤ u.recursiveDepth 0 := by
    rw [hpushes.recursiveDepth, h.depth]
    omega
  have hstep := hpushes.step cfg
  simp only [State.submitTask, hroom, hlimit, if_false] at hstep
  refine ⟨_, hu.next (a := .submitStep 0) hstep, ⟨⟨⟨c, some 0, false⟩, u.stack 0, ?_, rfl, ?_⟩,
    ?_⟩, ?_, ?_, m, fun d hd => ?_⟩
  · simp [State.exec, State.move]
  · simp [State.exec, State.move]
  · simp [State.exec, State.move]
  · simp [State.exec, State.move, hpushes.taskQueue, h.full]
  · simp [State.exec, State.move, hpushes.recursiveDepth, h.depth]
  · have hne : d ≠ c := by omega
    simp [State.exec, State.move, hpushes.place, hne, hm d hd]

end Overload

end SheepCoro.Scheduler
