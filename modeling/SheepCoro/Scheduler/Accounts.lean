import SheepCoro.Scheduler.Model
import SheepCoro.Lib.Update
import Mathlib.Data.Finset.Card
import Mathlib.Tactic.Common

/-!
# What the counters of a context count

`empty_wait_task()` reads three counters.  `Accounts` says which coroutines
they count: the ones that have registered a wait with the context, and the
ones whose I/O request the context has to submit or to reap.  In the middle
of a batch of completions the handled ones are still counted.  So a worker
that has found `empty_wait_task()` to be true has nobody to wait for
(`Accounts.nothing`), and no other thread can change that: only the worker
itself registers waits and requests.
-/

namespace SheepCoro.Scheduler

open Lib

variable {n : Nat} {s s' : State n} {w : Fin n} {c : Nat}

/-- The worker is inside of `process_work` or of the completion loop. -/
def RunPc.Executing : RunPc → Prop
  | .work _ | .callbacks _ _ => True
  | _ => False

/-- The worker has found `empty_wait_task()` to be true. -/
def RunPc.Idle : RunPc → Prop
  | .ready | .fetchAnd => True
  | _ => False

/-- The completions of the batch that have been handled. -/
def RunPc.handled : RunPc → Nat
  | .callbacks left num => num - left
  | _ => 0

/-- The counters of the contexts count at least the coroutines that they
stand for. -/
structure Accounts (s : State n) : Prop where
  idle : ∀ w, (s.pc w).Idle → s.numWaitTask w = 0 ∧ s.numIoWaitSubmit w = 0 ∧
    s.numIoRunning w = 0
  executing : ∀ w, s.stack w ≠ [] → (s.pc w).Executing
  submitting : ∀ w, s.submission w ≠ none → s.stack w ≠ []
  parked : ∀ c, s.place c = .parked → s.registered c ≠ none
  batch : ∀ w left num, s.pc w = .callbacks left num → left ≤ num ∧ num ≤ s.numIoRunning w
  waits : ∃ W : Fin n → Finset Nat, (∀ c i, s.registered c = some i → c ∈ W i) ∧
    ∀ i, (W i).card ≤ s.numWaitTask i
  io : ∃ J : Fin n → Finset Nat, (∀ c i, s.place c = .io i → c ∈ J i) ∧
    ∀ i, (J i).card + (s.pc i).handled ≤ s.numIoWaitSubmit i + s.numIoRunning i

/-- `empty_wait_task()` is true of a context that nobody waits for. -/
theorem Accounts.nothing (h : Accounts s) (hidle : (s.pc w).Idle) :
    (∀ c, s.registered c ≠ some w) ∧ ∀ c, s.place c ≠ .io w := by
  obtain ⟨hwait, hsubmit, hrunning⟩ := h.idle w hidle
  obtain ⟨W, hW, hWcard⟩ := h.waits
  obtain ⟨J, hJ, hJcard⟩ := h.io
  constructor
  · intro c hc
    have hempty : W w = ∅ := by
      have := hWcard w
      exact Finset.card_eq_zero.mp (by omega)
    have := hW c w hc
    simp [hempty] at this
  · intro c hc
    have hempty : J w = ∅ := by
      have := hJcard w
      exact Finset.card_eq_zero.mp (by omega)
    have := hJ c w hc
    simp [hempty] at this

/-- A coroutine moves to a place that no counter is about. -/
theorem Accounts.move {p : Place n} (h : Accounts s) (hp : p ≠ .parked)
    (hio : ∀ i, p ≠ .io i) : Accounts (s.move c p) := by
  obtain ⟨J, hJ, hJcard⟩ := h.io
  refine ⟨h.idle, h.executing, h.submitting, ?_, h.batch, h.waits, J, ?_, hJcard⟩
  · intro d hd
    exact h.parked d (of_update_eq hd hp)
  · intro d i hd
    exact hJ d i (of_update_eq hd (hio i))

/-- `exec_task` starts. -/
theorem Accounts.exec {e : Option (Fin n)} (h : Accounts s) (hpc : (s.pc w).Executing) :
    Accounts (s.exec w c e) := by
  have hmove : Accounts (s.move c .running) := h.move (by simp) (by simp)
  refine ⟨hmove.idle, ?_, ?_, hmove.parked, hmove.batch, hmove.waits, hmove.io⟩
  · refine (Function.forall_update_iff s.stack fun v xs => xs ≠ [] → (s.pc v).Executing).mpr ?_
    exact ⟨fun _ => hpc, fun v _ => h.executing v⟩
  · intro v hv
    exact update_cons_ne_nil fun _ => h.submitting v hv

/-- `submit_task` of any context, called by a worker that executes. -/
theorem Accounts.submitTask {e : Fin n} (h : Accounts s) (cfg : Config)
    (hpc : (s.pc w).Executing) : Accounts (s.submitTask cfg w e c) := by
  unfold State.submitTask
  split_ifs with hfull hdepth
  · have hmove : Accounts (s.move c .ready) := h.move (by simp) (by simp)
    exact ⟨hmove.idle, hmove.executing, hmove.submitting, hmove.parked, hmove.batch,
      hmove.waits, hmove.io⟩
  · exact h.move (by simp) (by simp)
  · exact Accounts.exec ⟨h.idle, h.executing, h.submitting, h.parked, h.batch, h.waits, h.io⟩ hpc

/-- A worker moves on. -/
theorem Accounts.goto {pc : RunPc} (h : Accounts s) (hexec : s.stack w ≠ [] → pc.Executing)
    (hidle : pc.Idle → s.numWaitTask w = 0 ∧ s.numIoWaitSubmit w = 0 ∧ s.numIoRunning w = 0)
    (hbatch : ∀ left num, pc = .callbacks left num → left ≤ num ∧ num ≤ s.numIoRunning w)
    (hhandled : pc.handled ≤ (s.pc w).handled) : Accounts (s.goto w pc) := by
  obtain ⟨J, hJ, hJcard⟩ := h.io
  refine ⟨?_, ?_, h.submitting, h.parked, ?_, h.waits, J, hJ, ?_⟩
  · refine (Function.forall_update_iff s.pc fun v pc => pc.Idle → s.numWaitTask v = 0 ∧
      s.numIoWaitSubmit v = 0 ∧ s.numIoRunning v = 0).mpr ?_
    exact ⟨hidle, fun v _ => h.idle v⟩
  · refine (Function.forall_update_iff s.pc fun v pc => s.stack v ≠ [] → pc.Executing).mpr ?_
    exact ⟨hexec, fun v _ => h.executing v⟩
  · refine (Function.forall_update_iff s.pc fun v pc => ∀ left num, pc = .callbacks left num →
      left ≤ num ∧ num ≤ s.numIoRunning v).mpr ?_
    exact ⟨hbatch, fun v _ => h.batch v⟩
  · refine (Function.forall_update_iff s.pc fun v pc => (J v).card + pc.handled ≤
      s.numIoWaitSubmit v + s.numIoRunning v).mpr ?_
    have hw := hJcard w
    exact ⟨by omega, fun v _ => hJcard v⟩

/-- `do_io_submit`, and the completions are peeked. -/
theorem Accounts.poll {num : Nat} (h : Accounts s) (hstack : s.stack w = [])
    (hpc : s.pc w = .poll) (hnum : num ≤ s.numIoRunning w + s.numIoWaitSubmit w) :
    Accounts ({ s with
      numIoRunning := Function.update s.numIoRunning w (s.numIoRunning w + s.numIoWaitSubmit w)
      numIoWaitSubmit := Function.update s.numIoWaitSubmit w 0 }.goto w (.callbacks num num)) := by
  have hsubmit : Accounts { s with
      numIoRunning := Function.update s.numIoRunning w (s.numIoRunning w + s.numIoWaitSubmit w)
      numIoWaitSubmit := Function.update s.numIoWaitSubmit w 0 } := by
    obtain ⟨J, hJ, hJcard⟩ := h.io
    refine ⟨?_, h.executing, h.submitting, h.parked, ?_, h.waits, J, hJ, ?_⟩
    · intro v hv
      obtain ⟨hwait, hsub, hrun⟩ := h.idle v hv
      refine ⟨hwait, update_eq_of (fun _ => rfl) fun _ => hsub, update_eq_of ?_ fun _ => hrun⟩
      rintro rfl
      omega
    · intro v left m hv
      have hold := h.batch v left m hv
      by_cases hvw : v = w
      · subst hvw
        rw [hpc] at hv
        cases hv
      · simpa only [Function.update_of_ne hvw] using hold
    · intro v
      have hold := hJcard v
      by_cases hvw : v = w
      · subst hvw
        simp only [Function.update_self]
        omega
      · simpa only [Function.update_of_ne hvw] using hold
  refine hsubmit.goto (absurd hstack) (fun hidle => hidle.elim) ?_ ?_
  · intro left m heq
    cases heq
    simpa using hnum
  · simp [RunPc.handled]

/-- The batch is done and leaves the counter. -/
theorem Accounts.reap {num : Nat} (h : Accounts s) (hstack : s.stack w = [])
    (hpc : s.pc w = .callbacks 0 num) :
    Accounts ({ s with
      numIoRunning := Function.update s.numIoRunning w (s.numIoRunning w - num) }.goto w
        .loop) := by
  have hnum := (h.batch w 0 num hpc).2
  obtain ⟨J, hJ, hJcard⟩ := h.io
  refine ⟨?_, ?_, h.submitting, h.parked, ?_, h.waits, J, hJ, ?_⟩
  · intro v hv
    by_cases hvw : v = w
    · subst hvw
      simp [State.goto, RunPc.Idle] at hv
    · simp only [State.goto, Function.update_of_ne hvw] at hv ⊢
      exact h.idle v hv
  · intro v hv
    have hold := h.executing v hv
    have hne : v ≠ w := fun heq => hv (heq ▸ hstack)
    simpa only [State.goto, Function.update_of_ne hne] using hold
  · intro v left m hv
    by_cases hvw : v = w
    · subst hvw
      simp [State.goto] at hv
    · simp only [State.goto, Function.update_of_ne hvw] at hv ⊢
      exact h.batch v left m hv
  · intro v
    have hold := hJcard v
    by_cases hvw : v = w
    · subst hvw
      simp only [hpc, RunPc.handled] at hold
      simp only [State.goto, Function.update_self, RunPc.handled]
      omega
    · simpa only [State.goto, Function.update_of_ne hvw] using hold

theorem Accounts.runStep {num : Nat} (h : Accounts s) (hstack : s.stack w = [])
    (hs : runStep s w num (s.pc w) = some s') : Accounts s' := by
  -- No counter changes, and the worker does not become idle.
  have hgoto : ∀ (u : State n) (pc : RunPc), Accounts u → u.stack w = [] → ¬ pc.Idle →
      (∀ left num, pc ≠ .callbacks left num) → Accounts (u.goto w pc) := by
    intro u pc hu hstack hidle hbatch
    refine hu.goto (absurd hstack) (fun hi => absurd hi hidle)
      (fun l m heq => absurd heq (hbatch l m)) ?_
    cases pc <;> simp_all [RunPc.handled]
  cases runStep_cases hs with
  | exit | enter | worked | waits | back | notified => exact hgoto s _ h hstack id (by simp)
  | empty _ hempty =>
    exact h.goto (absurd hstack) (fun _ => hempty) (by simp) (by simp [RunPc.handled])
  | idle hpc =>
    have hzero := h.idle w (by simp [hpc, RunPc.Idle])
    exact h.goto (absurd hstack) (fun _ => hzero) (by simp) (by simp [RunPc.handled])
  | fetchAnd | last | fetchSub | notify =>
    refine hgoto _ _ ?_ hstack id (by simp)
    exact ⟨h.idle, h.executing, h.submitting, h.parked, h.batch, h.waits, h.io⟩
  | poll hpc hnum => exact h.poll hstack hpc hnum
  | reap hpc => exact h.reap hstack hpc

/-- The coroutine of the innermost call suspends or finishes.  A place that
is counted gets its count. -/
theorem Accounts.suspend {x : Exec n} {rest : List (Exec n)} {p : Place n} {k : Nat}
    (h : Accounts s) (hstack : s.stack w = x :: rest)
    (hparked : p = .parked → s.registered x.coro ≠ none)
    (hio : ∀ i, p = .io i → i = w ∧ k = 1) :
    Accounts { s.suspend w x rest p with
      numIoWaitSubmit := Function.update s.numIoWaitSubmit w (s.numIoWaitSubmit w + k) } := by
  have hexec : (s.pc w).Executing := h.executing w (by simp [hstack])
  obtain ⟨J, hJ, hJcard⟩ := h.io
  refine ⟨?_, ?_, ?_, ?_, h.batch, h.waits,
    Function.update J w (if p = .io w then insert x.coro (J w) else J w), ?_, ?_⟩
  · intro v hv
    have hold := h.idle v hv
    have hne : v ≠ w := by
      intro heq
      subst heq
      simp only [State.suspend, State.move] at hv
      cases hpc : s.pc v <;> simp [hpc, RunPc.Idle, RunPc.Executing] at hv hexec
    simpa only [State.suspend, State.move, Function.update_of_ne hne] using hold
  · refine (Function.forall_update_iff s.stack fun v xs => xs ≠ [] → (s.pc v).Executing).mpr ?_
    exact ⟨fun _ => hexec, fun v _ => h.executing v⟩
  · intro v hv
    exact update_cons_ne_nil fun _ => h.submitting v hv
  · intro d hd
    rcases update_eq_iff.mp hd with ⟨rfl, hp⟩ | ⟨_, hold⟩
    · exact hparked hp
    · exact h.parked d hold
  · intro d i hd
    rcases update_eq_iff.mp hd with ⟨rfl, hp⟩ | ⟨_, hold⟩
    · obtain ⟨rfl, _⟩ := hio i hp
      simp [hp]
    · have hmem := hJ d i hold
      by_cases hi : i = w
      · subst hi
        rw [Function.update_self]
        split_ifs
        · exact Finset.mem_insert_of_mem hmem
        · exact hmem
      · rwa [Function.update_of_ne hi]
  · intro v
    have hold := hJcard v
    by_cases hv : v = w
    · subst hv
      simp only [Function.update_self, State.suspend, State.move]
      split_ifs with hp
      · have hins := Finset.card_insert_le x.coro (J v)
        have hk := (hio v hp).2
        omega
      · omega
    · simpa only [Function.update_of_ne hv, State.suspend, State.move] using hold

/-- The coroutine registers its wait with the context it runs in. -/
theorem Accounts.register {d : Nat} (h : Accounts s) (hexec : (s.pc w).Executing) :
    Accounts { s with
      registered := Function.update s.registered d (some w)
      numWaitTask := Function.update s.numWaitTask w (s.numWaitTask w + 1) } := by
  obtain ⟨W, hW, hWcard⟩ := h.waits
  refine ⟨?_, h.executing, h.submitting, ?_, h.batch,
    ⟨Function.update W w (insert d (W w)), ?_, ?_⟩, h.io⟩
  · intro v hv
    have hold := h.idle v hv
    have hne : v ≠ w := by
      intro heq
      subst heq
      cases hpc : s.pc v <;> simp [hpc, RunPc.Idle, RunPc.Executing] at hv hexec
    simpa only [Function.update_of_ne hne] using hold
  · intro e he hnone
    exact h.parked e he (of_update_eq hnone (by simp))
  · intro e i he
    rcases update_eq_iff.mp he with ⟨rfl, hi⟩ | ⟨_, hold⟩
    · cases hi
      simp
    · by_cases hi : i = w
      · subst hi
        rw [Function.update_self]
        exact Finset.mem_insert_of_mem (hW e i hold)
      · rw [Function.update_of_ne hi]
        exact hW e i hold
  · intro v
    by_cases hvw : v = w
    · subst hvw
      have hins := Finset.card_insert_le d (W v)
      have hold := hWcard v
      simp only [Function.update_self]
      omega
    · simpa only [Function.update_of_ne hvw] using hWcard v

/-- The coroutine unregisters; it is not parked. -/
theorem Accounts.unregister {d : Nat} {i : Fin n} (h : Accounts s)
    (hd : s.registered d = some i) (hplace : s.place d = .running) :
    Accounts { s with
      registered := Function.update s.registered d none
      numWaitTask := Function.update s.numWaitTask i (s.numWaitTask i - 1) } := by
  obtain ⟨W, hW, hWcard⟩ := h.waits
  refine ⟨?_, h.executing, h.submitting, ?_, h.batch,
    ⟨Function.update W i ((W i).erase d), ?_, ?_⟩, h.io⟩
  · intro v hv
    obtain ⟨hwait, hsub, hrun⟩ := h.idle v hv
    refine ⟨update_eq_of ?_ fun _ => hwait, hsub, hrun⟩
    rintro rfl
    omega
  · intro e he hnone
    rcases update_eq_iff.mp hnone with ⟨rfl, _⟩ | ⟨_, hold⟩
    · rw [show s.place e = .parked from he] at hplace
      cases hplace
    · exact h.parked e he hold
  · intro e j he
    rcases update_eq_iff.mp he with ⟨_, hnone⟩ | ⟨hne, hold⟩
    · cases hnone
    · by_cases hj : j = i
      · subst hj
        rw [Function.update_self]
        exact Finset.mem_erase.mpr ⟨hne, hW e j hold⟩
      · rw [Function.update_of_ne hj]
        exact hW e j hold
  · intro v
    by_cases hvi : v = i
    · subst hvi
      have herase := Finset.card_erase_of_mem (hW d v hd)
      have hold := hWcard v
      simp only [Function.update_self]
      omega
    · simpa only [Function.update_of_ne hvi] using hWcard v

theorem Accounts.act {x : Exec n} {rest : List (Exec n)} {a : Action} (h : Accounts s)
    (hstack : s.stack w = x :: rest) (hplace : s.place x.coro = .running)
    (hs : act s w x rest a = some s') : Accounts s' := by
  have hexec : (s.pc w).Executing := h.executing w (by simp [hstack])
  cases a with
  | register =>
    obtain ⟨_, ⟨⟩⟩ := Option.ite_none_right_eq_some.mp hs
    exact h.register hexec
  | unregister =>
    simp only [Scheduler.act] at hs
    split at hs
    · next i hi =>
      cases hs
      exact h.unregister hi hplace
    · cases hs
  | park =>
    obtain ⟨hreg, ⟨⟩⟩ := Option.ite_none_right_eq_some.mp hs
    have hsus := h.suspend (p := .parked) (k := 0) hstack (fun _ => hreg) (by simp)
    rw [Nat.add_zero, Function.update_eq_self] at hsus
    exact hsus
  | startIo =>
    obtain ⟨_, ⟨⟩⟩ := Option.ite_none_right_eq_some.mp hs
    exact h.suspend hstack (by simp) (by simp)
  | finish =>
    obtain ⟨_, ⟨⟩⟩ := Option.ite_none_right_eq_some.mp hs
    have hsus := h.suspend (p := .ended) (k := 0) hstack (by simp) (by simp)
    rw [Nat.add_zero, Function.update_eq_self] at hsus
    exact hsus
  | submit c =>
    obtain ⟨_, ⟨⟩⟩ := Option.ite_none_right_eq_some.mp hs
    have hmove : Accounts (s.move c .ready) := h.move (by simp) (by simp)
    refine ⟨hmove.idle, hmove.executing, ?_, hmove.parked, hmove.batch, hmove.waits, hmove.io⟩
    refine (Function.forall_update_iff s.submission fun v y => y ≠ none → s.stack v ≠ []).mpr ?_
    exact ⟨fun _ => by simp [hstack], fun v _ => h.submitting v⟩

section Step

variable [NeZero n] {cfg : Config}

/-- `submit_task_impl` is called by a coroutine that runs. -/
theorem Accounts.submitStep {x : Submission n} (h : Accounts s) (hx : s.submission w = some x) :
    Accounts (submitStep cfg s w x.coro x.pc) := by
  have hstack : s.stack w ≠ [] := h.submitting w (by simp [hx])
  have hupdate : ∀ y, ∀ v, Function.update s.submission w y v ≠ none → s.stack v ≠ [] := by
    intro y
    refine (Function.forall_update_iff s.submission fun v y => y ≠ none → s.stack v ≠ []).mpr ?_
    exact ⟨fun _ => hstack, fun v _ => h.submitting v⟩
  unfold Scheduler.submitStep
  split
  · exact ⟨h.idle, h.executing, hupdate _, h.parked, h.batch, h.waits, h.io⟩
  · exact ⟨h.idle, h.executing, hupdate _, h.parked, h.batch, h.waits, h.io⟩
  · exact ⟨h.idle, h.executing, hupdate _, h.parked, h.batch, h.waits, h.io⟩
  · refine Accounts.submitTask ?_ cfg (h.executing w hstack)
    exact ⟨h.idle, h.executing, hupdate _, h.parked, h.batch, h.waits, h.io⟩

section

omit [NeZero n]

theorem Accounts.execOne {left : Nat} (h : Accounts s) :
    Accounts (({ s with
      taskQueue := Function.update s.taskQueue w ((s.taskQueue w).erase c) }.goto w
        (.work left)).exec w c none) := by
  refine Accounts.exec ?_ (by simp [State.goto, RunPc.Executing])
  have hsame : Accounts { s with
      taskQueue := Function.update s.taskQueue w ((s.taskQueue w).erase c) } :=
    ⟨h.idle, h.executing, h.submitting, h.parked, h.batch, h.waits, h.io⟩
  exact hsame.goto (fun _ => trivial) (fun hidle => hidle.elim) (by simp) (by simp [RunPc.handled])

/-- A completion is handled; its coroutine is not waiting for I/O any
more. -/
theorem Accounts.callback {left num : Nat} (h : Accounts s)
    (hpc : s.pc w = .callbacks (left + 1) num) (hplace : s.place c = .io w) :
    Accounts ((s.goto w (.callbacks left num)).submitTask cfg w w c) := by
  -- Take the coroutine out of the set first, so that there is room for it
  -- among the handled ones.
  have hmove : Accounts ((s.move c .ready).goto w (.callbacks left num)) := by
    have hbatch := h.batch w _ _ hpc
    obtain ⟨J, hJ, hJcard⟩ := h.io
    refine ⟨?_, ?_, h.submitting, ?_, ?_, h.waits, Function.update J w ((J w).erase c), ?_, ?_⟩
    · refine (Function.forall_update_iff s.pc fun v pc => pc.Idle → s.numWaitTask v = 0 ∧
        s.numIoWaitSubmit v = 0 ∧ s.numIoRunning v = 0).mpr ?_
      exact ⟨fun hidle => hidle.elim, fun v _ => h.idle v⟩
    · refine (Function.forall_update_iff s.pc fun v pc => s.stack v ≠ [] → pc.Executing).mpr ?_
      exact ⟨fun _ => trivial, fun v _ => h.executing v⟩
    · intro d hd
      exact h.parked d (of_update_eq hd (by simp))
    · refine (Function.forall_update_iff s.pc fun v pc => ∀ left num, pc = .callbacks left num →
        left ≤ num ∧ num ≤ s.numIoRunning v).mpr ⟨?_, fun v _ => h.batch v⟩
      rintro _ _ ⟨⟩
      omega
    · intro d i hd
      rcases update_eq_iff.mp hd with ⟨_, hready⟩ | ⟨hne, hold⟩
      · cases hready
      · by_cases hi : i = w
        · subst hi
          rw [Function.update_self]
          exact Finset.mem_erase.mpr ⟨hne, hJ d i hold⟩
        · rw [Function.update_of_ne hi]
          exact hJ d i hold
    · intro v
      have hold := hJcard v
      by_cases hvw : v = w
      · subst hvw
        have herase := Finset.card_erase_of_mem (hJ c v hplace)
        have hpos := Finset.card_pos.mpr ⟨c, hJ c v hplace⟩
        simp only [hpc, RunPc.handled] at hold
        simp only [State.goto, State.move, Function.update_self, RunPc.handled]
        omega
      · simpa only [State.goto, State.move, Function.update_of_ne hvw] using hold
  have hsub := hmove.submitTask (w := w) (e := w) (c := c) cfg
    (by simp [State.goto, RunPc.Executing])
  -- The place of the coroutine is stored again by `submit_task`.
  have heq : ((s.move c .ready).goto w (.callbacks left num)).submitTask cfg w w c =
      (s.goto w (.callbacks left num)).submitTask cfg w w c := by
    unfold State.submitTask State.exec State.move State.goto
    simp
  rwa [heq] at hsub

theorem Accounts.leave {x : Exec n} {rest : List (Exec n)} {depth : Fin n → Nat}
    (h : Accounts s) (hstack : s.stack w = x :: rest) (hsub : s.submission w = none) :
    Accounts { s with stack := Function.update s.stack w rest, recursiveDepth := depth } := by
  refine ⟨h.idle, ?_, ?_, h.parked, h.batch, h.waits, h.io⟩
  · refine (Function.forall_update_iff s.stack fun v xs => xs ≠ [] → (s.pc v).Executing).mpr ?_
    exact ⟨fun _ => h.executing w (by simp [hstack]), fun v _ => h.executing v⟩
  · intro v hv
    have hne : v ≠ w := by
      rintro rfl
      exact hv hsub
    simpa only [Function.update_of_ne hne] using h.submitting v hv

end

theorem Accounts.step {a : Label n} (h : Accounts s) (hs : step cfg s a = some s') :
    Accounts s' := by
  cases step_cases hs with
  | run hstack hrun => exact h.runStep hstack hrun
  | execOne => exact h.execOne
  | callback hpc _ hplace => exact h.callback hpc hplace
  | act hstack _ hplace _ hact => exact h.act hstack hplace hact
  | @wake w _ _ _ _ hstack => exact h.submitTask cfg (h.executing w hstack)
  | submitStep hx => exact h.submitStep hx
  | leave hstack _ hsub => exact h.leave hstack hsub

end Step

theorem Init.accounts (h : Init s) : Accounts s := by
  refine ⟨fun w _ => ⟨h.numWaitTask w, h.numIoWaitSubmit w, h.numIoRunning w⟩,
    fun w hw => absurd (h.stack w) hw, fun w hw => absurd (h.submission w) hw, ?_, ?_,
    ⟨fun _ => ∅, ?_, by simp⟩, fun _ => ∅, ?_, ?_⟩
  · intro c hc
    have := h.place c
    simp [hc] at this
  · intro w left num hw
    rw [h.pc w] at hw
    cases hw
  · intro c i hc
    rw [h.registered c] at hc
    cases hc
  · intro c i hc
    have := h.place c
    simp [hc] at this
  · intro i
    simp [h.pc i, RunPc.handled]

end SheepCoro.Scheduler
