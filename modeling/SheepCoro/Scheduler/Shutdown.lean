import SheepCoro.Lib.Count
import SheepCoro.Scheduler.Accounts
import Mathlib

/-!
# The scheduler stops when there is nothing left to do

`Covered` says that a context with work has its flag raised.  `Tally` says
what the token is: the raised flags, plus what stop callbacks have still to
take from it, minus what submissions have still to add.

The token may be too low by the number of submissions that have raised a
flag and have not added to the token yet.  `Tally` lists them, the newest
first.  The target of a submission had its flag down when the submission
raised it, so it was not one of the workers that were submitting then.  The
worker of the oldest of them is therefore nobody's target, and there is one
raised flag more than there are pending additions (`Tally.length_lt`).

A flag goes down while a task is on its way to the context in one case
only, when the worker has looked at its queue before the task was pushed.
`shutdown_with_work_left` is such a run.  `shutdown_without_work` is about
the runs without it.
-/

namespace SheepCoro.Scheduler

open Lib

variable {n : Nat} {s s' : State n} {w : Fin n} {c : Nat}

/-! ## The flags -/

/-- The context whose flag a submission has raised and that it has not yet
given the task to. -/
def SubmitPc.raised : SubmitPc n → Option (Fin n)
  | .fetchAdd t _ | .push t => some t
  | .dispatch | .fetchOr _ => none

def State.raised (s : State n) (w : Fin n) : Option (Fin n) :=
  (s.submission w).bind fun x => x.pc.raised

/-- The condition on a step.  When a worker lowers its flag its queue is
empty and no task is on its way to it. -/
def NoArrival (s : State n) : Label n → Prop
  | .run w _ => s.pc w = .fetchAnd → s.taskQueue w = [] ∧ ∀ v, s.raised v ≠ some w
  | _ => True

instance (s : State n) : DecidablePred (NoArrival s) := fun a =>
  match a with
  | .run w _ => inferInstanceAs (Decidable (s.pc w = .fetchAnd →
      s.taskQueue w = [] ∧ ∀ v, s.raised v ≠ some w))
  | .execOne .. | .callback .. | .act .. | .wake .. | .submitStep .. | .leave .. =>
    inferInstanceAs (Decidable True)

/-- A context that has work has its flag raised. -/
structure Covered (s : State n) : Prop where
  queued : ∀ i, s.taskQueue i ≠ [] → s.stopFlag i = 1
  running : ∀ i, s.stack i ≠ [] → s.stopFlag i = 1
  waiting : ∀ c i, s.registered c = some i → s.stopFlag i = 1
  io : ∀ c i, s.place c = .io i → s.stopFlag i = 1
  target : ∀ w i, s.raised w = some i → s.stopFlag i = 1

theorem Covered.submitTask {e : Fin n} (h : Covered s) (cfg : Config) (hw : s.stopFlag w = 1)
    (he : s.stopFlag e = 1) : Covered (s.submitTask cfg w e c) := by
  have hmove : ∀ p : Place n, (∀ i, p ≠ .io i) → ∀ d i,
      Function.update s.place c p d = .io i → s.stopFlag i = 1 := by
    intro p hp d i hd
    exact h.io d i (of_update_eq hd (hp i))
  unfold State.submitTask State.exec State.move
  split_ifs
  · refine ⟨?_, h.running, h.waiting, hmove .ready (by simp), h.target⟩
    refine (Function.forall_update_iff s.taskQueue fun i xs => xs ≠ [] → s.stopFlag i = 1).mpr ?_
    exact ⟨fun _ => he, fun i _ => h.queued i⟩
  · exact ⟨h.queued, h.running, h.waiting, hmove .ended (by simp), h.target⟩
  · refine ⟨h.queued, ?_, h.waiting, hmove .running (by simp), h.target⟩
    refine (Function.forall_update_iff s.stack fun i xs => xs ≠ [] → s.stopFlag i = 1).mpr ?_
    exact ⟨fun _ => hw, fun i _ => h.running i⟩

/-- A worker that lowers its flag has no work. -/
theorem Covered.fetchAnd (h : Covered s) (hacc : Accounts s) (hstack : s.stack w = [])
    (hpc : s.pc w = .fetchAnd) (hqueue : s.taskQueue w = []) (hno : ∀ v, s.raised v ≠ some w) :
    Covered ({ s with stopFlag := Function.update s.stopFlag w (s.stopFlag w &&& 0) }.goto w
      (.fetchSub (s.stopFlag w))) := by
  obtain ⟨hreg, hio⟩ := hacc.nothing (w := w) (by simp [hpc, RunPc.Idle])
  refine ⟨?_, ?_, ?_, ?_, ?_⟩
  · intro i hi
    have hne : i ≠ w := fun heq => hi (heq ▸ hqueue)
    simpa only [State.goto, Function.update_of_ne hne] using h.queued i hi
  · intro i hi
    have hne : i ≠ w := fun heq => hi (heq ▸ hstack)
    simpa only [State.goto, Function.update_of_ne hne] using h.running i hi
  · intro c i hc
    have hne : i ≠ w := fun heq => hreg c (heq ▸ hc)
    simpa only [State.goto, Function.update_of_ne hne] using h.waiting c i hc
  · intro c i hc
    have hne : i ≠ w := fun heq => hio c (heq ▸ hc)
    simpa only [State.goto, Function.update_of_ne hne] using h.io c i hc
  · intro v i hv
    have hne : i ≠ w := fun heq => hno v (heq ▸ hv)
    simpa only [State.goto, Function.update_of_ne hne] using h.target v i hv

theorem Covered.runStep {num : Nat} (h : Covered s) (hacc : Accounts s)
    (hstack : s.stack w = []) (hguard : NoArrival s (.run w num))
    (hs : runStep s w num (s.pc w) = some s') : Covered s' := by
  have hsame : ∀ u : State n, u.taskQueue = s.taskQueue → u.stack = s.stack →
      u.registered = s.registered → u.place = s.place → u.submission = s.submission →
      u.stopFlag = s.stopFlag → Covered u := by
    intro u hqueue hstack hreg hplace hsub hflag
    refine ⟨?_, ?_, ?_, ?_, ?_⟩
    · rw [hqueue, hflag]
      exact h.queued
    · rw [hstack, hflag]
      exact h.running
    · rw [hreg, hflag]
      exact h.waiting
    · rw [hplace, hflag]
      exact h.io
    · unfold State.raised
      rw [hsub, hflag]
      exact h.target
  cases runStep_cases hs with
  | fetchAnd hpc =>
    obtain ⟨hqueue, hno⟩ := hguard hpc
    exact h.fetchAnd hacc hstack hpc hqueue hno
  | exit | enter | worked | empty | waits | idle | back | last | fetchSub | notify | notified
  | poll | reap => exact hsame _ rfl rfl rfl rfl rfl rfl

theorem Covered.act {x : Exec n} {rest : List (Exec n)} {a : Action} (h : Covered s)
    (hstack : s.stack w = x :: rest) (hs : act s w x rest a = some s') : Covered s' := by
  have hw : s.stopFlag w = 1 := h.running w (by simp [hstack])
  have htop : ∀ i, Function.update s.stack w ({ x with leaving := true } :: rest) i ≠ [] →
      s.stopFlag i = 1 := by
    refine (Function.forall_update_iff s.stack fun i xs => xs ≠ [] → s.stopFlag i = 1).mpr ?_
    exact ⟨fun _ => hw, fun i _ => h.running i⟩
  have hmove : ∀ p, (∀ i, p = .io i → i = w) → ∀ d i,
      Function.update s.place x.coro p d = .io i → s.stopFlag i = 1 := by
    intro p hp d i hd
    rcases update_eq_iff.mp hd with ⟨_, heq⟩ | ⟨_, hold⟩
    · rw [hp i heq]
      exact hw
    · exact h.io d i hold
  cases a with
  | register =>
    obtain ⟨_, ⟨⟩⟩ := Option.ite_none_right_eq_some.mp hs
    refine ⟨h.queued, h.running, ?_, h.io, h.target⟩
    intro d i hd
    rcases update_eq_iff.mp hd with ⟨_, heq⟩ | ⟨_, hold⟩
    · cases heq
      exact hw
    · exact h.waiting d i hold
  | unregister =>
    simp only [Scheduler.act] at hs
    split at hs
    · cases hs
      refine ⟨h.queued, h.running, ?_, h.io, h.target⟩
      intro d i hd
      exact h.waiting d i (of_update_eq hd (by simp))
    · cases hs
  | park =>
    obtain ⟨_, ⟨⟩⟩ := Option.ite_none_right_eq_some.mp hs
    exact ⟨h.queued, htop, h.waiting, hmove _ (by simp), h.target⟩
  | startIo =>
    obtain ⟨_, ⟨⟩⟩ := Option.ite_none_right_eq_some.mp hs
    exact ⟨h.queued, htop, h.waiting, hmove _ (by simp), h.target⟩
  | finish =>
    obtain ⟨_, ⟨⟩⟩ := Option.ite_none_right_eq_some.mp hs
    exact ⟨h.queued, htop, h.waiting, hmove _ (by simp), h.target⟩
  | submit c =>
    obtain ⟨_, ⟨⟩⟩ := Option.ite_none_right_eq_some.mp hs
    refine ⟨h.queued, h.running, h.waiting, ?_, ?_⟩
    · intro d i hd
      exact h.io d i (of_update_eq hd (by simp))
    · intro v i hv
      by_cases hvw : v = w
      · subst hvw
        simp [State.raised, SubmitPc.raised] at hv
      · simp only [State.raised, Function.update_of_ne hvw] at hv
        exact h.target v i hv

section Step

variable [NeZero n] {cfg : Config}

/-- `fetch_or(1)` on a flag. -/
theorem or_one {v : Nat} (hv : v ≤ 1) : v ||| 1 = 1 := by
  have hcases : v = 0 ∨ v = 1 := by omega
  rcases hcases with rfl | rfl <;> rfl

/-- A submission raises the flag before it gives the task away. -/
theorem Covered.submitStep {x : Submission n} (h : Covered s) (hacc : Accounts s)
    (hle : ∀ i, s.stopFlag i ≤ 1) (hx : s.submission w = some x) :
    Covered (submitStep cfg s w x.coro x.pc) := by
  have hw : s.stopFlag w = 1 := h.running w (hacc.submitting w (by simp [hx]))
  have hraised : ∀ t, x.pc.raised = some t → s.stopFlag t = 1 := by
    intro t ht
    exact h.target w t (by simp [State.raised, hx, ht])
  -- What the other submissions have raised does not change.
  have htarget : ∀ y : Option (Submission n), ∀ v i,
      (Function.update s.submission w y v).bind (fun x => x.pc.raised) = some i →
        y.bind (fun x => x.pc.raised) = some i ∨ s.stopFlag i = 1 := by
    intro y v i hv
    by_cases hvw : v = w
    · subst hvw
      rw [Function.update_self] at hv
      exact .inl hv
    · rw [Function.update_of_ne hvw] at hv
      exact .inr (h.target v i hv)
  unfold Scheduler.submitStep
  split
  · refine ⟨h.queued, h.running, h.waiting, h.io, fun v i hv => ?_⟩
    simpa [SubmitPc.raised] using htarget _ v i hv
  · next t hpc =>
    have hone : s.stopFlag t ||| 1 = 1 := or_one (hle t)
    have hkeep : ∀ i, s.stopFlag i = 1 →
        Function.update s.stopFlag t (s.stopFlag t ||| 1) i = 1 := by
      intro i hi
      exact update_eq_of (fun _ => hone) fun _ => hi
    refine ⟨fun i hi => hkeep i (h.queued i hi), fun i hi => hkeep i (h.running i hi),
      fun d i hd => hkeep i (h.waiting d i hd), fun d i hd => hkeep i (h.io d i hd),
      fun v i hv => ?_⟩
    rcases htarget _ v i hv with hi | hi
    · simp only [SubmitPc.raised, Option.bind_some, Option.some.injEq] at hi
      simp [← hi, hone]
    · exact hkeep i hi
  · next t delta hpc =>
    have ht : s.stopFlag t = 1 := hraised t (by simp [hpc, SubmitPc.raised])
    refine ⟨h.queued, h.running, h.waiting, h.io, fun v i hv => ?_⟩
    rcases htarget _ v i hv with hi | hi
    · simp only [SubmitPc.raised, Option.bind_some, Option.some.injEq] at hi
      exact hi ▸ ht
    · exact hi
  · next t hpc =>
    have ht : s.stopFlag t = 1 := hraised t (by simp [hpc, SubmitPc.raised])
    have hdone : Covered { s with submission := Function.update s.submission w none } := by
      refine ⟨h.queued, h.running, h.waiting, h.io, fun v i hv => ?_⟩
      simpa using htarget _ v i hv
    exact hdone.submitTask cfg hw ht

theorem Covered.step {a : Label n} (h : Covered s) (hacc : Accounts s)
    (hle : ∀ i, s.stopFlag i ≤ 1) (hguard : NoArrival s a) (hs : step cfg s a = some s') :
    Covered s' := by
  cases step_cases hs with
  | run hstack hrun => exact h.runStep hacc hstack hguard hrun
  | @execOne w _ _ _ _ hmem =>
    have hw : s.stopFlag w = 1 := h.queued w (List.ne_nil_of_mem hmem)
    refine ⟨?_, ?_, h.waiting, ?_, h.target⟩
    · refine (Function.forall_update_iff s.taskQueue fun i xs => xs ≠ [] →
        s.stopFlag i = 1).mpr ?_
      exact ⟨fun _ => hw, fun i _ => h.queued i⟩
    · refine (Function.forall_update_iff s.stack fun i xs => xs ≠ [] → s.stopFlag i = 1).mpr ?_
      exact ⟨fun _ => hw, fun i _ => h.running i⟩
    · intro d i hd
      exact h.io d i (of_update_eq hd (by simp))
  | @callback w c left num _ _ hplace =>
    have hw : s.stopFlag w = 1 := h.io c w hplace
    have hgoto : Covered (s.goto w (.callbacks left num)) :=
      ⟨h.queued, h.running, h.waiting, h.io, h.target⟩
    exact hgoto.submitTask cfg hw hw
  | act hstack _ _ _ hact => exact h.act hstack hact
  | @wake w i c hreg _ hstack =>
    exact h.submitTask cfg (h.running w hstack) (h.waiting c i hreg)
  | submitStep hx => exact h.submitStep hacc hle hx
  | @leave w _ _ hstack =>
    refine ⟨h.queued, ?_, h.waiting, h.io, h.target⟩
    refine (Function.forall_update_iff s.stack fun i xs => xs ≠ [] → s.stopFlag i = 1).mpr ?_
    exact ⟨fun _ => h.running w (by simp [hstack]), fun i _ => h.running i⟩

end Step

/-! ## The token -/

/-- What the stop callback has still to take from the token. -/
def RunPc.owed : RunPc → Nat
  | .fetchSub cnt => cnt
  | _ => 0

/-- The context whose flag a submission has raised without having added to
the token. -/
def SubmitPc.short : SubmitPc n → Option (Fin n)
  | .fetchAdd t (_ + 1) => some t
  | _ => none

def State.short (s : State n) (w : Fin n) : Option (Fin n) :=
  (s.submission w).bind fun x => x.pc.short

/-- `R` lists the submissions that the token is short of, as pairs of the
worker and its target, the newest first. -/
structure Tally (s : State n) (R : List (Fin n × Fin n)) : Prop where
  flag_le : ∀ i, s.stopFlag i ≤ 1
  delta_le : ∀ w c t delta, s.submission w = some ⟨c, .fetchAdd t delta⟩ → delta ≤ 1
  token : s.stopToken = ∑ i, (s.stopFlag i : Int) + ∑ i, ((s.pc i).owed : Int) - R.length
  mem : ∀ r, r ∈ R ↔ s.short r.1 = some r.2
  targets : (R.map Prod.snd).Nodup
  /-- The target of a submission was not submitting itself. -/
  order : R.Pairwise fun new old => new.2 ≠ old.1
  own : ∀ r ∈ R, r.1 ≠ r.2

/-- In a list ordered like that some worker is nobody's target. -/
theorem exists_not_target {R : List (Fin n × Fin n)} (hne : R ≠ [])
    (horder : R.Pairwise fun new old => new.2 ≠ old.1) (hown : ∀ r ∈ R, r.1 ≠ r.2) :
    ∃ r ∈ R, r.1 ∉ R.map Prod.snd := by
  induction R with
  | nil => exact absurd rfl hne
  | cons r R ih =>
    obtain ⟨hnew, horder⟩ := List.pairwise_cons.mp horder
    have hself := hown r (List.mem_cons_self ..)
    by_cases hR : R = []
    · subst hR
      exact ⟨r, List.mem_cons_self .., by simpa using hself⟩
    · obtain ⟨q, hq, hqt⟩ := ih hR horder fun p hp => hown p (List.mem_cons_of_mem _ hp)
      refine ⟨q, List.mem_cons_of_mem _ hq, ?_⟩
      rw [List.map_cons, List.mem_cons]
      intro hor
      rcases hor with heq | hmem
      · exact hnew q hq heq.symm
      · exact hqt hmem

theorem raised_of_short {t : Fin n} (h : s.short w = some t) : s.raised w = some t := by
  unfold State.short at h
  unfold State.raised
  cases hx : s.submission w with
  | none => simp [hx] at h
  | some x =>
    simp only [hx, Option.bind_some] at h ⊢
    unfold SubmitPc.short at h
    split at h
    · next heq =>
      rw [heq]
      exact h
    · cases h

theorem submission_of_short {t : Fin n} (h : s.short w = some t) : s.submission w ≠ none := by
  intro hnone
  simp [State.short, hnone] at h

/-- There is one raised flag more than there are pending additions. -/
theorem Tally.length_lt {R : List (Fin n × Fin n)} (h : Tally s R) (hacc : Accounts s)
    (hcov : Covered s) (hne : R ≠ []) : (R.length : Int) < ∑ i, (s.stopFlag i : Int) := by
  obtain ⟨r, hr, hnot⟩ := exists_not_target hne h.order h.own
  let U : Finset (Fin n) := insert r.1 (R.map Prod.snd).toFinset
  have hcard : U.card = R.length + 1 := by
    rw [Finset.card_insert_of_notMem (by simpa using hnot),
      List.toFinset_card_of_nodup h.targets, List.length_map]
  have hflag : ∀ i ∈ U, s.stopFlag i = 1 := by
    intro i hi
    rcases Finset.mem_insert.mp hi with hi | hi
    · have hshort := (h.mem r).mp hr
      rw [hi]
      exact hcov.running _ (hacc.submitting _ (submission_of_short hshort))
    · obtain ⟨q, hq, hqi⟩ := List.mem_map.mp (List.mem_toFinset.mp hi)
      rw [← hqi]
      exact hcov.target q.1 q.2 (raised_of_short ((h.mem q).mp hq))
  calc (R.length : Int) < U.card := by omega
    _ = ∑ i ∈ U, (s.stopFlag i : Int) := by
      rw [Finset.sum_congr rfl fun i hi => by rw [hflag i hi]]
      simp
    _ ≤ ∑ i, (s.stopFlag i : Int) := by
      apply Finset.sum_le_sum_of_subset_of_nonneg (Finset.subset_univ U)
      intro i _ _
      omega

/-- When the token is exhausted every flag is down. -/
theorem Tally.exhausted {R : List (Fin n × Fin n)} {cnt : Nat} (h : Tally s R)
    (hacc : Accounts s) (hcov : Covered s) (hpc : s.pc w = .fetchSub cnt)
    (htoken : s.stopToken = cnt) (i : Fin n) : s.stopFlag i = 0 := by
  have howed : (cnt : Int) ≤ ∑ i, ((s.pc i).owed : Int) := by
    have hle := Finset.single_le_sum (f := fun i => ((s.pc i).owed : Int))
      (fun j _ => Int.natCast_nonneg _) (Finset.mem_univ w)
    simpa [hpc, RunPc.owed] using hle
  have hflag : (s.stopFlag i : Int) ≤ ∑ i, (s.stopFlag i : Int) :=
    Finset.single_le_sum (f := fun i => (s.stopFlag i : Int))
      (fun j _ => Int.natCast_nonneg _) (Finset.mem_univ i)
  have heq := h.token
  by_cases hR : R = []
  · subst hR
    simp only [List.length_nil] at heq
    omega
  · have hlt := h.length_lt hacc hcov hR
    omega

section Steps

variable {R : List (Fin n × Fin n)}

/-- A step that is not about flags and tokens. -/
theorem Tally.congr (h : Tally s R) (hflag : s'.stopFlag = s.stopFlag)
    (htoken : s'.stopToken = s.stopToken)
    (hdelta : ∀ w c t delta, s'.submission w = some ⟨c, .fetchAdd t delta⟩ → delta ≤ 1)
    (hshort : ∀ v, s'.short v = s.short v) (howed : ∀ i, (s'.pc i).owed = (s.pc i).owed) :
    Tally s' R := by
  refine ⟨?_, hdelta, ?_, ?_, h.targets, h.order, h.own⟩
  · rw [hflag]
    exact h.flag_le
  · rw [htoken, hflag, h.token]
    simp only [howed]
  · intro r
    rw [hshort]
    exact h.mem r

theorem Tally.same (h : Tally s R) (hflag : s'.stopFlag = s.stopFlag)
    (htoken : s'.stopToken = s.stopToken) (hsub : s'.submission = s.submission)
    (howed : ∀ i, (s'.pc i).owed = (s.pc i).owed) : Tally s' R := by
  refine h.congr hflag htoken ?_ (fun v => ?_) howed
  · rw [hsub]
    exact h.delta_le
  · rw [State.short, State.short, hsub]

theorem Tally.submitTask {cfg : Config} {e : Fin n} (h : Tally s R) :
    Tally (s.submitTask cfg w e c) R := by
  unfold State.submitTask
  split_ifs
  · exact h.same rfl rfl rfl fun _ => rfl
  · exact h.same rfl rfl rfl fun _ => rfl
  · exact h.same rfl rfl rfl fun _ => rfl

/-- What a worker owes when it has moved on. -/
theorem owed_update {pc : RunPc} (hpc : pc.owed = (s.pc w).owed) (i : Fin n) :
    (Function.update s.pc w pc i).owed = (s.pc i).owed := by
  by_cases hi : i = w
  · subst hi
    rw [Function.update_self, hpc]
  · rw [Function.update_of_ne hi]

/-- The flag goes down, and the worker owes its old value. -/
theorem Tally.fetchAnd (h : Tally s R) (hpc : s.pc w = .fetchAnd) :
    Tally ({ s with stopFlag := Function.update s.stopFlag w (s.stopFlag w &&& 0) }.goto w
      (.fetchSub (s.stopFlag w))) R := by
  refine ⟨?_, h.delta_le, ?_, h.mem, h.targets, h.order, h.own⟩
  · intro i
    by_cases hi : i = w
    · subst hi
      simp [State.goto]
    · simpa only [State.goto, Function.update_of_ne hi] using h.flag_le i
  · have hflags := sum_update (fun x : Nat => (x : Int)) s.stopFlag w 0
    have howed := sum_update (fun pc : RunPc => (pc.owed : Int)) s.pc w (.fetchSub (s.stopFlag w))
    have htoken := h.token
    have hold : (s.pc w).owed = 0 := by
      rw [hpc]
      rfl
    have hnew : (RunPc.fetchSub (s.stopFlag w)).owed = s.stopFlag w := rfl
    simp only [hold, hnew] at howed
    simp only [State.goto, Nat.and_zero]
    omega

/-- The token pays for the flag that went down. -/
theorem Tally.fetchSub {cnt : Nat} {pc : RunPc} (h : Tally s R) (hpc : s.pc w = .fetchSub cnt)
    (hzero : pc.owed = 0) : Tally ({ s with stopToken := s.stopToken - cnt }.goto w pc) R := by
  refine ⟨h.flag_le, h.delta_le, ?_, h.mem, h.targets, h.order, h.own⟩
  have howed := sum_update (fun pc : RunPc => (pc.owed : Int)) s.pc w pc
  have htoken := h.token
  have hold : (s.pc w).owed = cnt := by
    rw [hpc]
    rfl
  simp only [hold, hzero] at howed
  simp only [State.goto]
  omega

theorem Tally.runStep {num : Nat} (h : Tally s R) (hs : runStep s w num (s.pc w) = some s') :
    Tally s' R := by
  have hgoto : ∀ pc : RunPc, pc.owed = 0 → (s.pc w).owed = 0 → ∀ u : State n,
      u.stopFlag = s.stopFlag → u.stopToken = s.stopToken → u.submission = s.submission →
      u.pc = s.pc → Tally (u.goto w pc) R := by
    intro pc hnew hold u hflag htoken hsub hu
    refine h.same hflag htoken hsub fun i => ?_
    simp only [State.goto, hu]
    exact owed_update (hnew.trans hold.symm) i
  cases runStep_cases hs with
  | fetchAnd hpc => exact h.fetchAnd hpc
  | last hpc | fetchSub hpc => exact h.fetchSub hpc rfl
  | exit hpc | enter hpc | worked hpc | empty hpc | waits hpc | idle hpc | back hpc | notify hpc
  | notified hpc | poll hpc | reap hpc =>
    exact hgoto _ rfl (by rw [hpc]; rfl) _ rfl rfl rfl rfl

/-- The worker of a submission moves to a position that the token is not
short of. -/
theorem short_update {y : Option (Submission n)} (hy : y.bind (fun x => x.pc.short) = none)
    (hw : s.short w = none) (v : Fin n) :
    (Function.update s.submission w y v).bind (fun x => x.pc.short) = s.short v := by
  by_cases hv : v = w
  · subst hv
    rw [Function.update_self, hy, hw]
  · rw [Function.update_of_ne hv, State.short]

theorem delta_update {y : Option (Submission n)} (h : Tally s R)
    (hy : ∀ c t delta, y = some ⟨c, .fetchAdd t delta⟩ → delta ≤ 1) (v : Fin n) (c : Nat)
    (t : Fin n) (delta : Nat)
    (hv : Function.update s.submission w y v = some ⟨c, .fetchAdd t delta⟩) : delta ≤ 1 := by
  by_cases hvw : v = w
  · subst hvw
    rw [Function.update_self] at hv
    exact hy c t delta hv
  · rw [Function.update_of_ne hvw] at hv
    exact h.delta_le v c t delta hv

theorem Tally.act {x : Exec n} {rest : List (Exec n)} {a : Action} (h : Tally s R)
    (hsub : s.submission w = none) (hs : act s w x rest a = some s') : Tally s' R := by
  cases a with
  | unregister =>
    simp only [Scheduler.act] at hs
    split at hs
    · cases hs
      exact h.same rfl rfl rfl fun _ => rfl
    · cases hs
  | register | park | startIo | finish =>
    obtain ⟨_, ⟨⟩⟩ := Option.ite_none_right_eq_some.mp hs
    exact h.same rfl rfl rfl fun _ => rfl
  | submit c =>
    obtain ⟨_, ⟨⟩⟩ := Option.ite_none_right_eq_some.mp hs
    refine h.congr rfl rfl (delta_update h (by simp)) (short_update rfl ?_) fun _ => rfl
    rw [State.short, hsub]
    rfl

/-- A submission raises a flag that is down: the target is not among the
workers that are submitting. -/
theorem Tally.raise {t : Fin n} (h : Tally s R) (hacc : Accounts s) (hcov : Covered s)
    (hx : s.submission w = some ⟨c, .fetchOr t⟩) (ht : s.stopFlag t = 0) :
    Tally { s with
      stopFlag := Function.update s.stopFlag t 1
      submission := Function.update s.submission w (some ⟨c, .fetchAdd t 1⟩) } ((w, t) :: R) := by
  have hup : ∀ v, s.stopFlag v = 1 → v ≠ t := by
    intro v hv heq
    rw [heq, ht] at hv
    cases hv
  have hrunning : ∀ v, s.submission v ≠ none → v ≠ t := fun v hv =>
    hup v (hcov.running v (hacc.submitting v hv))
  have hshort : ∀ v, v ≠ w → (Function.update s.submission w (some ⟨c, .fetchAdd t 1⟩) v).bind
      (fun x => x.pc.short) = s.short v := by
    intro v hv
    rw [Function.update_of_ne hv, State.short]
  have hw : s.short w = none := by simp [State.short, hx, SubmitPc.short]
  refine ⟨?_, delta_update h (by simp), ?_, ?_, ?_, ?_, ?_⟩
  · intro i
    by_cases hi : i = t
    · subst hi
      simp
    · simpa only [Function.update_of_ne hi] using h.flag_le i
  · have hflags := sum_update (fun x : Nat => (x : Int)) s.stopFlag t 1
    have htoken := h.token
    simp only [ht] at hflags
    simp only [List.length_cons]
    omega
  · intro r
    show r ∈ (w, t) :: R ↔ (Function.update s.submission w (some ⟨c, .fetchAdd t 1⟩) r.1).bind
      (fun x => x.pc.short) = some r.2
    rw [List.mem_cons, h.mem]
    by_cases hr : r.1 = w
    · rw [hr, hw, Function.update_self]
      simp only [Option.bind_some, SubmitPc.short, Option.some.injEq, reduceCtorEq, or_false]
      constructor
      · intro heq
        rw [heq]
      · intro heq
        exact Prod.ext hr heq.symm
    · rw [hshort _ hr]
      constructor
      · intro hor
        rcases hor with heq | hmem
        · exact absurd (by rw [heq]) hr
        · exact hmem
      · exact Or.inr
  · rw [List.map_cons, List.nodup_cons]
    refine ⟨fun hmem => ?_, h.targets⟩
    obtain ⟨q, hq, hqt⟩ := List.mem_map.mp hmem
    exact hup q.2 (hcov.target q.1 q.2 (raised_of_short ((h.mem q).mp hq))) hqt
  · refine List.pairwise_cons.mpr ⟨fun q hq => ?_, h.order⟩
    exact (hrunning q.1 (submission_of_short ((h.mem q).mp hq))).symm
  · intro r hr
    rcases List.mem_cons.mp hr with heq | hr
    · rw [heq]
      exact hrunning w (by simp [hx])
    · exact h.own r hr

/-- The token gets what it was short of. -/
theorem Tally.settle {t : Fin n} (h : Tally s R)
    (hx : s.submission w = some ⟨c, .fetchAdd t 1⟩) :
    Tally { s with
      stopToken := s.stopToken + 1
      submission := Function.update s.submission w (some ⟨c, .push t⟩) } (R.erase (w, t)) := by
  have hw : s.short w = some t := by simp [State.short, hx, SubmitPc.short]
  have hmem : (w, t) ∈ R := (h.mem (w, t)).mpr hw
  have hnodup : R.Nodup := List.Nodup.of_map _ h.targets
  refine ⟨h.flag_le, delta_update h (by simp), ?_, ?_, ?_, ?_, ?_⟩
  · have hlen := List.length_erase_of_mem hmem
    have hpos := List.length_pos_of_mem hmem
    simp only [h.token]
    omega
  · intro r
    show r ∈ R.erase (w, t) ↔ (Function.update s.submission w (some ⟨c, .push t⟩) r.1).bind
      (fun x => x.pc.short) = some r.2
    rw [hnodup.mem_erase_iff, h.mem]
    by_cases hr : r.1 = w
    · rw [hr, hw, Function.update_self]
      simp only [Option.some.injEq, Option.bind_some, SubmitPc.short, reduceCtorEq, iff_false]
      intro hand
      exact hand.1 (Prod.ext hr hand.2.symm)
    · rw [Function.update_of_ne hr, ← State.short]
      constructor
      · exact And.right
      · intro hshort
        exact ⟨fun heq => hr (by rw [heq]), hshort⟩
  · exact h.targets.sublist (List.erase_sublist.map _)
  · exact h.order.sublist List.erase_sublist
  · intro r hr
    exact h.own r (List.mem_of_mem_erase hr)

theorem Tally.submitStep [NeZero n] {cfg : Config} {x : Submission n} (h : Tally s R)
    (hacc : Accounts s) (hcov : Covered s) (hx : s.submission w = some x) :
    ∃ R', Tally (submitStep cfg s w x.coro x.pc) R' := by
  obtain ⟨c, pc⟩ := x
  cases pc with
  | dispatch =>
    refine ⟨R, h.congr rfl rfl (delta_update h (by simp)) (short_update rfl ?_) fun _ => rfl⟩
    simp [State.short, hx, SubmitPc.short]
  | fetchOr t =>
    by_cases ht : s.stopFlag t = 0
    · refine ⟨(w, t) :: R, ?_⟩
      have hraise := h.raise hacc hcov hx ht
      simpa only [Scheduler.submitStep, ht, Nat.zero_or, Nat.sub_zero] using hraise
    · have hone : s.stopFlag t = 1 := by
        have := h.flag_le t
        omega
      refine ⟨R, h.congr ?_ rfl (delta_update h ?_) (short_update ?_ ?_) fun _ => rfl⟩
      · have hsame : Function.update s.stopFlag t 1 = s.stopFlag := by
          rw [← hone, Function.update_eq_self]
        simpa only [Scheduler.submitStep, or_one (h.flag_le t)] using hsame
      · simp [hone]
      · simp [hone, SubmitPc.short]
      · simp [State.short, hx, SubmitPc.short]
  | fetchAdd t delta =>
    have hle := h.delta_le w c t delta hx
    by_cases hd : delta = 0
    · subst hd
      refine ⟨R, h.congr rfl ?_ (delta_update h (by simp)) (short_update rfl ?_) fun _ => rfl⟩
      · simp [Scheduler.submitStep]
      · simp [State.short, hx, SubmitPc.short]
    · have hone : delta = 1 := by omega
      subst hone
      exact ⟨R.erase (w, t), h.settle hx⟩
  | push t =>
    have hdone : Tally { s with submission := Function.update s.submission w none } R := by
      refine h.congr rfl rfl (delta_update h (by simp)) (short_update rfl ?_) fun _ => rfl
      simp [State.short, hx, SubmitPc.short]
    exact ⟨R, hdone.submitTask⟩

theorem Tally.step [NeZero n] {cfg : Config} {a : Label n} (h : Tally s R) (hacc : Accounts s)
    (hcov : Covered s) (hs : step cfg s a = some s') : ∃ R', Tally s' R' := by
  cases step_cases hs with
  | run _ hrun => exact ⟨R, h.runStep hrun⟩
  | execOne hpc => exact ⟨R, h.same rfl rfl rfl (owed_update (by rw [hpc]; rfl))⟩
  | @callback w _ left num hpc =>
    have hgoto : Tally (s.goto w (.callbacks left num)) R :=
      h.same rfl rfl rfl (owed_update (by rw [hpc]; rfl))
    exact ⟨R, hgoto.submitTask⟩
  | act _ _ _ hsub hact => exact ⟨R, h.act hsub hact⟩
  | wake => exact ⟨R, h.submitTask⟩
  | submitStep hx => exact h.submitStep hacc hcov hx
  | leave => exact ⟨R, h.same rfl rfl rfl fun _ => rfl⟩

end Steps

/-! ## The end of the scheduler -/

/-- Nothing is queued, nothing runs, nobody waits, nothing is being
submitted. -/
structure Quiet (s : State n) : Prop where
  queues_empty : ∀ i, s.taskQueue i = []
  nothing_runs : ∀ i, s.stack i = []
  nothing_submitted : ∀ i, s.submission i = none
  nobody_parked : ∀ c, s.place c ≠ .parked
  no_io : ∀ c i, s.place c ≠ .io i

/-- With all flags down there is no work. -/
theorem Covered.quiet (h : Covered s) (hacc : Accounts s) (hdown : ∀ i, s.stopFlag i = 0) :
    Quiet s := by
  have hno : ∀ i, s.stopFlag i ≠ 1 := fun i => by simp [hdown i]
  have hstack : ∀ i, s.stack i = [] := by
    intro i
    by_contra hne
    exact hno i (h.running i hne)
  refine ⟨?_, hstack, ?_, ?_, ?_⟩
  · intro i
    by_contra hne
    exact hno i (h.queued i hne)
  · intro i
    by_contra hne
    exact hacc.submitting i hne (hstack i)
  · intro c hc
    obtain ⟨i, hi⟩ := Option.ne_none_iff_exists'.mp (hacc.parked c hc)
    exact hno i (h.waiting c i hi)
  · intro c i hc
    exact hno i (h.io c i hc)

variable [NeZero n] {cfg : Config}

theorem noArrival_inv (h : (machine n cfg).ReachableUnder NoArrival s) :
    Accounts s ∧ Covered s ∧ ∃ R, Tally s R := by
  refine h.invariant (I := fun s => Accounts s ∧ Covered s ∧ ∃ R, Tally s R) ?_ ?_
  · intro s h0
    have h0 : Init s := h0
    refine ⟨h0.accounts, ⟨fun i _ => h0.stopFlag i, fun i _ => h0.stopFlag i,
      fun _ i _ => h0.stopFlag i, fun _ i _ => h0.stopFlag i, fun _ i _ => h0.stopFlag i⟩,
      [], ?_, ?_, ?_, ?_, List.nodup_nil, List.Pairwise.nil, by simp⟩
    · intro i
      rw [h0.stopFlag i]
    · intro w c t delta hw
      rw [h0.submission w] at hw
      cases hw
    · simp [h0.stopToken, h0.stopFlag, h0.pc, RunPc.owed]
    · intro r
      simp [State.short, h0.submission]
  · intro s a s' _ hinv hguard hs
    obtain ⟨hacc, hcov, R, htally⟩ := hinv
    exact ⟨hacc.step hs, hcov.step hacc htally.flag_le hguard hs, htally.step hacc hcov hs⟩

/-- In every run in which no task is on its way to a context whose worker
lowers its flag, the stop callback finds the token exhausted only when there
is nothing left to do in any context. -/
theorem shutdown_without_work (n : Nat) [NeZero n] (cfg : Config) (s : State n)
    (h : (machine n cfg).ReachableUnder NoArrival s) (w : Fin n) (cnt : Nat)
    (hpc : s.pc w = .fetchSub cnt) (htoken : s.stopToken = cnt) : Quiet s := by
  obtain ⟨hacc, hcov, R, htally⟩ := noArrival_inv h
  exact hcov.quiet hacc (htally.exhausted hacc hcov hpc htoken)

/-- Two contexts, and the task `0` was submitted before the loop. -/
def start : State 2 where
  stopFlag _ := 1
  stopToken := 2
  cur := 1
  taskQueue i := if i.val = 0 then [0] else []
  recursiveDepth _ := 0
  numWaitTask _ := 0
  numIoWaitSubmit _ := 0
  numIoRunning _ := 0
  stopRequested _ := false
  pc _ := .loop
  stack _ := []
  submission _ := none
  place c := if c = 0 then .ready else .fresh
  registered _ := none

theorem init_start : Init start := by
  refine ⟨fun _ => rfl, rfl, fun _ => rfl, fun _ => rfl, fun _ => rfl, fun _ => rfl,
    fun _ => rfl, fun _ => rfl, fun _ => rfl, fun c => ?_, fun _ => rfl⟩
  by_cases hc : c = 0
  · simp [start, hc]
  · simp [start, hc]

/-- The task submits another one, which context `1` executes; then both
workers lower their flags. -/
theorem shutdown_without_work_two :
    ∃ s, (machine 2 ⟨16, 4⟩).ReachableUnder NoArrival s ∧
      (s.pc 0 = .fetchSub 1 ∧ s.stopToken = 1 ∧ s.place 1 = .ended) ∧ Quiet s := by
  have hrun : ((machine 2 ⟨16, 4⟩).runUnder NoArrival start
      [.run 0 0, .execOne 0 0, .act 0 (.submit 1), .submitStep 0, .submitStep 0, .submitStep 0,
        .submitStep 0, .act 0 .finish, .leave 0, .run 1 0, .execOne 1 1, .act 1 .finish, .leave 1,
        .run 1 0, .run 1 0, .run 1 0, .run 1 0, .run 1 0, .run 0 0, .run 0 0, .run 0 0,
        .run 0 0]).map (fun s => decide (s.pc 0 = .fetchSub 1 ∧ s.stopToken = 1 ∧
          s.place 1 = .ended)) = some true := by decide
  obtain ⟨s, hs, htest⟩ := Machine.reachableUnder_of_run init_start hrun
  have htest := of_decide_eq_true htest
  exact ⟨s, hs, htest, shutdown_without_work 2 _ s hs 0 1 htest.1 htest.2.1⟩

/-- Worker `1` has found its queue empty.  The task `0` picks context `1`,
whose flag is still raised; then worker `1` lowers the flag, the task is
pushed, and worker `0` finds the token exhausted. -/
theorem shutdown_with_work_left :
    ∃ s, (machine 2 ⟨16, 4⟩).Reachable s ∧ s.pc 0 = .fetchSub 1 ∧ s.stopToken = 1 ∧
      s.taskQueue 1 = [1] := by
  have hrun : ((machine 2 ⟨16, 4⟩).run start
      [.run 1 0, .run 1 0, .run 1 0, .run 1 0, .run 0 0, .execOne 0 0, .act 0 (.submit 1),
        .submitStep 0, .submitStep 0, .submitStep 0, .run 1 0, .run 1 0, .submitStep 0,
        .act 0 .finish, .leave 0, .run 0 0, .run 0 0, .run 0 0, .run 0 0]).map
      (fun s => decide (s.pc 0 = .fetchSub 1 ∧ s.stopToken = 1 ∧ s.taskQueue 1 = [1])) =
        some true := by decide
  obtain ⟨s, hs, htest⟩ := Machine.reachable_of_run init_start hrun
  exact ⟨s, hs, of_decide_eq_true htest⟩

end SheepCoro.Scheduler
