import SheepCoro.Scheduler.Model
import SheepCoro.Lib.Count
import SheepCoro.Lib.History
import SheepCoro.Lib.Update
import Mathlib.Tactic.Common

/-!
# What the stop token counts

`submit_task_impl` raises a flag and then adds to `m_stop_token` what the flag
was short of; the stop callback of a context lowers its flag and then takes
the old value of the flag from the token.  Flag and token are two words, so in
between the token is off by one, in one direction or the other.

The machine has the flags, the token, the callbacks of the `n` contexts and
any number of threads (`ι`) that submit, worker or not.  `Balanced` is the
equation with the corrections for the calls in progress.  The workers of
`SheepCoro.Scheduler` are an instance: their steps are steps of this machine
or do not touch the token (`ofScheduler_step`).
-/

namespace SheepCoro.Token

open Lib

open Scheduler (SubmitPc)

structure State (n : Nat) (ι : Type) where
  /-- `m_ctx_stop_flag`. -/
  stopFlag : Fin n → Nat
  /-- `m_stop_token`. -/
  stopToken : Int
  /-- `m_cur` of the round robin dispatcher. -/
  cur : Nat
  /-- In the stop callback of a context, the old value of the flag that is
  still to be taken from the token. -/
  callback : Fin n → Option Nat
  /-- Where a thread is in `submit_task_impl`. -/
  call : ι → Option (SubmitPc n)

inductive Label (n : Nat) (ι : Type)
  /-- The stop callback of `w` calls `fetch_and`. -/
  | fetchAnd (w : Fin n)
  /-- The stop callback of `w` calls `fetch_sub`. -/
  | fetchSub (w : Fin n)
  /-- A thread calls `submit_task_impl`. -/
  | submit (j : ι)
  /-- A thread moves on in `submit_task_impl`. -/
  | submitStep (j : ι)
deriving DecidableEq

variable {n : Nat} [NeZero n] {ι : Type} [DecidableEq ι]

def submitStep (s : State n ι) (j : ι) : SubmitPc n → State n ι
  | .dispatch => { s with
      cur := (s.cur + 1) % 2 ^ 64
      call := Function.update s.call j (some (.fetchOr (Fin.ofNat n s.cur))) }
  | .fetchOr t => { s with
      stopFlag := Function.update s.stopFlag t (s.stopFlag t ||| 1)
      call := Function.update s.call j (some (.fetchAdd t (1 - s.stopFlag t))) }
  | .fetchAdd t delta => { s with
      stopToken := s.stopToken + delta
      call := Function.update s.call j (some (.push t)) }
  | .push _ => { s with call := Function.update s.call j none }

def step (s : State n ι) : Label n ι → Option (State n ι)
  | .fetchAnd w =>
    if s.callback w = none then
      some { s with
        stopFlag := Function.update s.stopFlag w (s.stopFlag w &&& 0)
        callback := Function.update s.callback w (some (s.stopFlag w)) }
    else none
  | .fetchSub w =>
    match s.callback w with
    | some cnt => some { s with
        stopToken := s.stopToken - cnt
        callback := Function.update s.callback w none }
    | none => none
  | .submit j =>
    if s.call j = none then some { s with call := Function.update s.call j (some .dispatch) }
    else none
  | .submitStep j =>
    match s.call j with
    | some pc => some (submitStep s j pc)
    | none => none

/-- After `init_impl`. -/
structure Init (s : State n ι) : Prop where
  stopFlag : ∀ i, s.stopFlag i = 1
  stopToken : s.stopToken = n
  callback : ∀ w, s.callback w = none
  call : ∀ j, s.call j = none

variable (n ι) in
def machine : Machine (State n ι) (Label n ι) where
  init := Init
  step := step

/-- The callback has cleared a raised flag and not subtracted yet. -/
def clearing : Option Nat → Bool
  | some cnt => cnt == 1
  | none => false

/-- The call has raised a flag that was down and not added yet. -/
def adding : Option (SubmitPc n) → Bool
  | some (.fetchAdd _ delta) => delta == 1
  | _ => false

/-- How often a flag was raised while it was down, and how often its context
took one from the token. -/
structure Tally where
  raised : Nat
  subtracted : Nat
deriving DecidableEq

def Tally.after (i : Fin n) (s : State n ι) (a : Label n ι) (t : Tally) : Tally :=
  match a with
  | .fetchSub w =>
    if w = i ∧ s.callback w = some 1 then { t with subtracted := t.subtracted + 1 } else t
  | .submitStep j =>
    match s.call j with
    | some (.fetchOr target) =>
      if target = i ∧ s.stopFlag i = 0 then { t with raised := t.raised + 1 } else t
    | _ => t
  | _ => t

/-- The tally of context `i` over a run. -/
def tally (i : Fin n) (s : State n ι) (as : List (Label n ι)) : Tally :=
  (machine n ι).history (Tally.after i) s ⟨0, 0⟩ as

/-! ## The equation -/

section Balanced

variable [Fintype ι]

structure Balanced (s : State n ι) : Prop where
  flag_le : ∀ i, s.stopFlag i ≤ 1
  cnt_le : ∀ w cnt, s.callback w = some cnt → cnt ≤ 1
  delta_le : ∀ j t delta, s.call j = some (.fetchAdd t delta) → delta ≤ 1
  token : s.stopToken + count adding s.call =
    ((∑ i, s.stopFlag i : Nat) : Int) + count clearing s.callback

variable {s s' : State n ι}

omit [DecidableEq ι] [NeZero n] in
theorem Balanced.fetchAnd {w : Fin n} (h : Balanced s) (hw : s.callback w = none) :
    Balanced { s with
      stopFlag := Function.update s.stopFlag w (s.stopFlag w &&& 0)
      callback := Function.update s.callback w (some (s.stopFlag w)) } := by
  have hflag := h.flag_le w
  refine ⟨?_, ?_, h.delta_le, ?_⟩
  · refine (Function.forall_update_iff s.stopFlag fun _ x => x ≤ 1).mpr ⟨?_, fun i _ => h.flag_le i⟩
    simp
  · refine (Function.forall_update_iff s.callback fun _ x => ∀ cnt, x = some cnt → cnt ≤ 1).mpr
      ⟨?_, fun v _ => h.cnt_le v⟩
    rintro _ ⟨⟩
    exact hflag
  · have hsum := sum_update id s.stopFlag w (s.stopFlag w &&& 0)
    have hcount := count_update clearing s.callback w (some (s.stopFlag w))
    have htoken := h.token
    simp only [id, Nat.and_zero] at hsum ⊢
    simp only [hw, clearing, beq_iff_eq, Bool.false_eq_true, if_false] at hcount
    split_ifs at hcount <;> omega

omit [DecidableEq ι] [NeZero n] in
theorem Balanced.fetchSub {w : Fin n} {cnt : Nat} (h : Balanced s)
    (hw : s.callback w = some cnt) :
    Balanced { s with
      stopToken := s.stopToken - cnt
      callback := Function.update s.callback w none } := by
  have hcnt := h.cnt_le w cnt hw
  refine ⟨h.flag_le, ?_, h.delta_le, ?_⟩
  · refine (Function.forall_update_iff s.callback fun _ x => ∀ cnt, x = some cnt → cnt ≤ 1).mpr
      ⟨?_, fun v _ => h.cnt_le v⟩
    rintro _ ⟨⟩
  · have hcount := count_update clearing s.callback w none
    have htoken := h.token
    simp only [hw, clearing, beq_iff_eq, Bool.false_eq_true, if_false] at hcount
    dsimp only
    split_ifs at hcount <;> omega

omit [NeZero n] in
/-- A call goes to a position at which it owes the token nothing, from one at
which it owes it nothing. -/
theorem Balanced.goto {j : ι} {p : Option (SubmitPc n)} (h : Balanced s)
    (hold : adding (s.call j) = false) (hnew : ∀ t delta, p ≠ some (.fetchAdd t delta)) :
    Balanced { s with call := Function.update s.call j p } := by
  have hp : adding p = false := by
    cases p with
    | none => rfl
    | some pc =>
      cases pc with
      | fetchAdd t delta => exact absurd rfl (hnew t delta)
      | dispatch | fetchOr | push => rfl
  refine ⟨h.flag_le, h.cnt_le, ?_, ?_⟩
  · refine (Function.forall_update_iff s.call fun _ x => ∀ t delta, x = some (.fetchAdd t delta) →
      delta ≤ 1).mpr ⟨fun t delta heq => absurd heq (hnew t delta), fun i _ => h.delta_le i⟩
  · have hcount := count_update adding s.call j p
    have htoken := h.token
    simp only [hold, hp, Bool.false_eq_true, if_false] at hcount
    dsimp only
    omega

theorem Balanced.fetchOr {j : ι} {t : Fin n} (h : Balanced s)
    (hj : s.call j = some (.fetchOr t)) : Balanced (submitStep s j (.fetchOr t)) := by
  have hflag := h.flag_le t
  have hor : s.stopFlag t ||| 1 = 1 := by
    rcases Nat.le_one_iff_eq_zero_or_eq_one.mp hflag with heq | heq <;> rw [heq] <;> rfl
  refine ⟨?_, h.cnt_le, ?_, ?_⟩
  · refine (Function.forall_update_iff s.stopFlag fun _ x => x ≤ 1).mpr ⟨?_, fun i _ => h.flag_le i⟩
    rw [hor]
  · refine (Function.forall_update_iff s.call fun _ x => ∀ t delta, x = some (.fetchAdd t delta) →
      delta ≤ 1).mpr ⟨?_, fun i _ => h.delta_le i⟩
    rintro _ _ ⟨⟩
    omega
  · have hsum := sum_update id s.stopFlag t (s.stopFlag t ||| 1)
    have hcount := count_update adding s.call j (some (.fetchAdd t (1 - s.stopFlag t)))
    have htoken := h.token
    simp only [id, hor] at hsum
    simp only [hj, adding, beq_iff_eq, Bool.false_eq_true, if_false] at hcount
    simp only [submitStep, hor]
    split_ifs at hcount <;> omega

theorem Balanced.fetchAdd {j : ι} {t : Fin n} {delta : Nat} (h : Balanced s)
    (hj : s.call j = some (.fetchAdd t delta)) : Balanced (submitStep s j (.fetchAdd t delta)) := by
  have hdelta := h.delta_le j t delta hj
  refine ⟨h.flag_le, h.cnt_le, ?_, ?_⟩
  · refine (Function.forall_update_iff s.call fun _ x => ∀ t delta, x = some (.fetchAdd t delta) →
      delta ≤ 1).mpr ⟨?_, fun i _ => h.delta_le i⟩
    rintro _ _ ⟨⟩
  · have hcount := count_update adding s.call j (some (.push t))
    have htoken := h.token
    simp only [hj, adding, beq_iff_eq, Bool.false_eq_true, if_false] at hcount
    simp only [submitStep]
    split_ifs at hcount <;> omega

theorem Balanced.step {a : Label n ι} (h : Balanced s) (hs : step s a = some s') :
    Balanced s' := by
  cases a with
  | fetchAnd w =>
    obtain ⟨hw, ⟨⟩⟩ := Option.ite_none_right_eq_some.mp hs
    exact h.fetchAnd hw
  | fetchSub w =>
    simp only [Token.step] at hs
    split at hs
    · next cnt hw =>
      cases hs
      exact h.fetchSub hw
    · cases hs
  | submit j =>
    obtain ⟨hj, ⟨⟩⟩ := Option.ite_none_right_eq_some.mp hs
    exact h.goto (by rw [hj]; rfl) (by simp)
  | submitStep j =>
    simp only [Token.step] at hs
    split at hs
    · next pc hj =>
      cases hs
      cases pc with
      | dispatch =>
        have hgoto := h.goto (j := j) (p := some (.fetchOr (Fin.ofNat n s.cur)))
          (by rw [hj]; rfl) (by simp)
        exact ⟨hgoto.flag_le, hgoto.cnt_le, hgoto.delta_le, hgoto.token⟩
      | fetchOr t => exact h.fetchOr hj
      | fetchAdd t delta => exact h.fetchAdd hj
      | push t => exact h.goto (by rw [hj]; rfl) (by simp)
    · cases hs

omit [DecidableEq ι] [NeZero n] in
theorem Init.balanced (h : Init s) : Balanced s := by
  refine ⟨fun i => by rw [h.stopFlag i], ?_, ?_, ?_⟩
  · intro w cnt hw
    rw [h.callback w] at hw
    cases hw
  · intro j t delta hj
    rw [h.call j] at hj
    cases hj
  · have hadding : count adding s.call = 0 := count_eq_zero.mpr fun j => by rw [h.call j]; rfl
    have hclearing : count clearing s.callback = 0 :=
      count_eq_zero.mpr fun w => by rw [h.callback w]; rfl
    simp [hadding, hclearing, h.stopToken, h.stopFlag]

theorem balanced_of_reachable (h : (machine n ι).Reachable s) : Balanced s :=
  h.invariant (I := Balanced) (fun _ h0 => Init.balanced h0) fun _ _ _ _ hb hs => hb.step hs

end Balanced

/-! ## What one context takes from the token -/

section Tally

variable {s s' : State n ι} {i : Fin n}

/-- Whatever a context takes from the token was put there: by `init_impl`, or
by a submission that raised the flag. -/
def Tallied (i : Fin n) (s : State n ι) (t : Tally) : Prop :=
  t.subtracted + (clearing (s.callback i)).toNat + s.stopFlag i = 1 + t.raised

theorem Tallied.step {a : Label n ι} {t : Tally} (h : Tallied i s t) (hflag : s.stopFlag i ≤ 1)
    (hs : step s a = some s') : Tallied i s' (t.after i s a) := by
  unfold Tallied at h ⊢
  cases a with
  | fetchAnd w =>
    obtain ⟨hw, ⟨⟩⟩ := Option.ite_none_right_eq_some.mp hs
    simp only [Tally.after]
    by_cases hi : i = w
    · subst hi
      simp only [hw, clearing, Bool.toNat_false] at h
      simp only [Function.update_self, clearing, Nat.and_zero]
      rcases Nat.le_one_iff_eq_zero_or_eq_one.mp hflag with heq | heq
      · rw [heq] at h ⊢
        exact h
      · rw [heq] at h ⊢
        exact h
    · simpa only [Function.update_of_ne hi] using h
  | fetchSub w =>
    simp only [Token.step] at hs
    split at hs
    · next cnt hw =>
      cases hs
      by_cases hi : w = i
      · subst hi
        simp only [Tally.after, hw, Function.update_self]
        simp only [hw, clearing] at h ⊢
        by_cases hcnt : cnt = 1
        · subst hcnt
          simpa using h
        · have hzero : (cnt == 1) = false := by simpa using hcnt
          simpa [hcnt, hzero] using h
      · simpa only [Tally.after, hi, false_and, if_false,
          Function.update_of_ne (Ne.symm hi)] using h
    · cases hs
  | submit j =>
    obtain ⟨_, ⟨⟩⟩ := Option.ite_none_right_eq_some.mp hs
    exact h
  | submitStep j =>
    simp only [Token.step] at hs
    split at hs
    · next pc hj =>
      cases hs
      cases pc with
      | fetchOr target =>
        simp only [Tally.after, hj, submitStep]
        by_cases hi : target = i
        · subst hi
          simp only [Function.update_self, true_and]
          rcases Nat.le_one_iff_eq_zero_or_eq_one.mp hflag with heq | heq
          · rw [heq] at h ⊢
            simp only [if_true, Nat.zero_or]
            omega
          · rw [heq] at h ⊢
            simpa using h
        · simpa only [hi, false_and, if_false, Function.update_of_ne (Ne.symm hi)] using h
      | dispatch | fetchAdd | push =>
        simpa only [Tally.after, hj, submitStep] using h
    · cases hs

end Tally

/-! ## The workers of a scheduler -/

section Scheduler

variable {cfg : Scheduler.Config} {s s' : Scheduler.State n} {w : Fin n}

/-- What a worker of the scheduler still has to take from the token. -/
def callbackOf : Scheduler.RunPc → Option Nat
  | .fetchSub cnt => some cnt
  | _ => none

/-- The workers are the threads that submit. -/
def ofScheduler (s : Scheduler.State n) : State n (Fin n) where
  stopFlag := s.stopFlag
  stopToken := s.stopToken
  cur := s.cur
  callback w := callbackOf (s.pc w)
  call w := (s.submission w).map (·.pc)

/-- A step of a worker is a step of this machine or does not touch it. -/
def Follows (s s' : Scheduler.State n) : Prop :=
  ofScheduler s' = ofScheduler s ∨
    ∃ a, step (ofScheduler s) a = some (ofScheduler s')

omit [NeZero n] in
theorem ofScheduler_submitTask {e : Fin n} {c : Nat} :
    ofScheduler (s.submitTask cfg w e c) = ofScheduler s := by
  unfold Scheduler.State.submitTask
  split_ifs <;> rfl

omit [NeZero n] in
/-- A worker moves on, and neither position is between the two updates. -/
theorem ofScheduler_goto {pc : Scheduler.RunPc} (hold : callbackOf (s.pc w) = none)
    (hnew : callbackOf pc = none) : ofScheduler (s.goto w pc) = ofScheduler s := by
  have hsame : (fun v => callbackOf (Function.update s.pc w pc v)) =
      fun v => callbackOf (s.pc v) := by
    funext v
    by_cases hv : v = w
    · subst hv
      rw [Function.update_self, hnew, hold]
    · rw [Function.update_of_ne hv]
  simp only [ofScheduler, Scheduler.State.goto, hsame]

/-- The same for a worker that has changed something that is not in this
machine. -/
theorem ofScheduler_moved {u : Scheduler.State n} {pc : Scheduler.RunPc}
    (hu : ofScheduler u = ofScheduler s) (hold : callbackOf (u.pc w) = none)
    (hnew : callbackOf pc = none) : Follows s (u.goto w pc) :=
  .inl ((ofScheduler_goto hold hnew).trans hu)

/-- The worker is past the token. -/
theorem follows_fetchSub {cnt : Nat} {pc : Scheduler.RunPc} (hpc : s.pc w = .fetchSub cnt)
    (hnew : callbackOf pc = none) :
    Follows s ({ s with stopToken := s.stopToken - cnt }.goto w pc) := by
  refine .inr ⟨.fetchSub w, ?_⟩
  have hsome : (ofScheduler s).callback w = some cnt := by simp [ofScheduler, hpc, callbackOf]
  simp only [step, hsome, Option.some.injEq]
  simp only [ofScheduler, Scheduler.State.goto, State.mk.injEq, true_and, and_true]
  funext v
  by_cases hv : v = w
  · subst hv
    simp only [Function.update_self, hnew]
  · simp [Function.update_of_ne hv]

theorem follows_runStep {num : Nat} (hs : Scheduler.runStep s w num (s.pc w) = some s') :
    Follows s s' := by
  cases Scheduler.runStep_cases hs with
  | exit hpc | enter hpc | worked hpc | empty hpc | waits hpc | idle hpc | back hpc | notify hpc
  | notified hpc | poll hpc | reap hpc =>
    exact ofScheduler_moved rfl (by rw [hpc]; rfl) rfl
  | fetchAnd hpc =>
    refine .inr ⟨.fetchAnd w, ?_⟩
    have hnone : (ofScheduler s).callback w = none := by simp [ofScheduler, hpc, callbackOf]
    simp only [step, hnone, if_true, Option.some.injEq]
    simp only [ofScheduler, Scheduler.State.goto, State.mk.injEq, true_and, and_true]
    funext v
    by_cases hv : v = w
    · subst hv
      simp [callbackOf]
    · simp [Function.update_of_ne hv]
  | last hpc | fetchSub hpc => exact follows_fetchSub hpc rfl

omit [NeZero n] in
/-- The position of a call in the machine of the token. -/
theorem ofScheduler_call {x : Option (Scheduler.Submission n)} :
    (fun v => (Function.update s.submission w x v).map (·.pc)) =
      Function.update (fun v => (s.submission v).map (·.pc)) w (x.map (·.pc)) := by
  funext v
  by_cases hv : v = w
  · subst hv
    simp
  · simp [Function.update_of_ne hv]

theorem follows_submitStep {c : Nat} {pc : SubmitPc n} (hw : s.submission w = some ⟨c, pc⟩) :
    Follows s (Scheduler.submitStep cfg s w c pc) := by
  refine .inr ⟨.submitStep w, ?_⟩
  have hcall : (ofScheduler s).call w = some pc := by simp [ofScheduler, hw]
  simp only [step, hcall, Option.some.injEq]
  cases pc with
  | dispatch | fetchOr | fetchAdd =>
    simp only [submitStep, Scheduler.submitStep, ofScheduler, ofScheduler_call, Option.map_some]
  | push t =>
    simp only [Scheduler.submitStep, ofScheduler_submitTask]
    simp only [submitStep, ofScheduler, ofScheduler_call, Option.map_none]

theorem ofScheduler_step {a : Scheduler.Label n} (hs : Scheduler.step cfg s a = some s') :
    Follows s s' := by
  cases Scheduler.step_cases hs with
  | run _ hrun => exact follows_runStep hrun
  | @execOne w c _ hpc =>
    exact .inl (ofScheduler_goto (s := { s with
      taskQueue := Function.update s.taskQueue w ((s.taskQueue w).erase c) })
      (by rw [hpc]; rfl) rfl)
  | callback hpc =>
    left
    rw [ofScheduler_submitTask]
    exact ofScheduler_goto (by rw [hpc]; rfl) rfl
  | @act w a _ _ _ _ _ _ hsub hact =>
    cases a with
    | register | park | startIo | finish =>
      obtain ⟨_, ⟨⟩⟩ := Option.ite_none_right_eq_some.mp hact
      exact .inl rfl
    | unregister =>
      simp only [Scheduler.act] at hact
      split at hact <;> cases hact
      exact .inl rfl
    | submit c =>
      obtain ⟨_, ⟨⟩⟩ := Option.ite_none_right_eq_some.mp hact
      refine .inr ⟨.submit w, ?_⟩
      have hnone : (ofScheduler s).call w = none := by simp [ofScheduler, hsub]
      simp only [step, hnone, if_true, Option.some.injEq]
      simp only [ofScheduler, ofScheduler_call, Option.map_some, Scheduler.State.move]
  | wake => exact .inl ofScheduler_submitTask
  | submitStep hx => exact follows_submitStep hx
  | leave => exact .inl rfl

/-- The token of a scheduler with its workers as the only ones that submit. -/
theorem ofScheduler_reachable (h : (Scheduler.machine n cfg).Reachable s) :
    (machine n (Fin n)).Reachable (ofScheduler s) := by
  refine h.invariant (I := fun s => (machine n (Fin n)).Reachable (ofScheduler s)) ?_ ?_
  · intro s h0
    refine .init ⟨Scheduler.Init.stopFlag h0, Scheduler.Init.stopToken h0, fun w => ?_, fun w => ?_⟩
    · simp [ofScheduler, Scheduler.Init.pc h0 w, callbackOf]
    · simp [ofScheduler, Scheduler.Init.submission h0 w]
  · intro s a s' _ hr hs
    rcases ofScheduler_step hs with heq | ⟨l, hl⟩
    · rwa [heq]
    · exact hr.next hl

theorem scheduler_balanced (h : (Scheduler.machine n cfg).Reachable s) :
    Balanced (ofScheduler s) :=
  balanced_of_reachable (ofScheduler_reachable h)

end Scheduler

/-- Over every run the token is the sum of the flags, plus the callbacks that
have cleared a flag and not subtracted yet, minus the submissions that have
raised a flag and not added yet; it is the number of raised flags when there
is no such call.  A context takes no more from the token than `init_impl` and
the submissions that found its flag down have put there.  The same holds of
the token of a whole scheduler, for the callbacks and submissions that its
workers are in. -/
theorem token_exact [Fintype ι] (s₀ s : State n ι) (as : List (Label n ι)) (h₀ : Init s₀)
    (hrun : (machine n ι).run s₀ as = some s) :
    (∀ i, s.stopFlag i ≤ 1) ∧
    s.stopToken = ((∑ i, s.stopFlag i : Nat) : Int) + count clearing s.callback -
      count adding s.call ∧
    ((∀ w, clearing (s.callback w) = false) → (∀ j, adding (s.call j) = false) →
      s.stopToken = (Finset.univ.filter fun i => s.stopFlag i = 1).card) ∧
    (∀ i, (tally i s₀ as).subtracted + (clearing (s.callback i)).toNat + s.stopFlag i =
      1 + (tally i s₀ as).raised) ∧
    ∀ (cfg : Scheduler.Config) (u : Scheduler.State n),
      (Scheduler.machine n cfg).Reachable u → (∀ i, u.stopFlag i ≤ 1) ∧
        u.stopToken = ((∑ i, u.stopFlag i : Nat) : Int) +
          count clearing (fun w => callbackOf (u.pc w)) -
          count adding (fun w => (u.submission w).map (·.pc)) := by
  have hreach : (machine n ι).Reachable s₀ := .init h₀
  have hbalanced := balanced_of_reachable (hreach.run hrun)
  have htoken := hbalanced.token
  refine ⟨hbalanced.flag_le, by omega, fun hclear hadd => ?_, fun i => ?_, fun cfg u hu => ?_⟩
  · rw [count_eq_zero.mpr hclear, count_eq_zero.mpr hadd] at htoken
    have hcard : (Finset.univ.filter fun i => s.stopFlag i = 1).card = ∑ i, s.stopFlag i := by
      rw [Finset.card_filter]
      apply Finset.sum_congr rfl
      intro i _
      have := hbalanced.flag_le i
      split_ifs <;> omega
    rw [hcard]
    simpa using htoken
  · refine Machine.history_invariant (I := Tallied i) (fun s a s' t hr ht hs => ?_) hreach ?_ hrun
    · exact ht.step ((balanced_of_reachable hr).flag_le i) hs
    · simp [Tallied, h₀.stopFlag i, h₀.callback i, clearing]
  · have hworkers := scheduler_balanced hu
    have hsum := hworkers.token
    exact ⟨hworkers.flag_le, by simp only [ofScheduler] at hsum; omega⟩

/-- Two contexts after `init_impl`, and one thread that submits. -/
def newState : State 2 Unit where
  stopFlag _ := 1
  stopToken := 2
  cur := 1
  callback _ := none
  call _ := none

/-- Context 1 is idle, and its callback is between `fetch_and` and `fetch_sub`
when a submission raises its flag again.  It is idle once more and calls back
twice: the second callback finds the flag down. -/
theorem token_exact_two_contexts :
    ∃ s, (machine 2 Unit).run newState [.fetchAnd 1, .submit (), .submitStep (), .submitStep (),
        .fetchSub 1, .submitStep (), .fetchAnd 1, .fetchSub 1, .fetchAnd 1, .fetchSub 1] =
          some s ∧
      s.stopToken = 1 ∧ (Finset.univ.filter fun i => s.stopFlag i = 1).card = 1 ∧
      tally (1 : Fin 2) newState [.fetchAnd 1, .submit (), .submitStep (), .submitStep (),
        .fetchSub 1, .submitStep (), .fetchAnd 1, .fetchSub 1, .fetchAnd 1, .fetchSub 1] =
          ⟨1, 2⟩ := by
  have hrun : ((machine 2 Unit).run newState [.fetchAnd 1, .submit (), .submitStep (),
      .submitStep (), .fetchSub 1, .submitStep (), .fetchAnd 1, .fetchSub 1, .fetchAnd 1,
      .fetchSub 1]).map (fun s => decide (s.stopToken = 1 ∧
        (∀ w, clearing (s.callback w) = false) ∧ ∀ j, adding (s.call j) = false)) =
          some true := by decide
  obtain ⟨s, hs, htest⟩ := Option.map_eq_some_iff.mp hrun
  obtain ⟨htoken, hclear, hadd⟩ := of_decide_eq_true htest
  have hinit : Init newState := ⟨fun _ => rfl, rfl, fun _ => rfl, fun _ => rfl⟩
  have hquiet := (token_exact newState s _ hinit hs).2.2.1 hclear hadd
  refine ⟨s, hs, htoken, ?_, by decide⟩
  rw [htoken] at hquiet
  exact_mod_cast hquiet.symm

end SheepCoro.Token
