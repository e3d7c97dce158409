import SheepCoro.Context.Ledger
import SheepCoro.Lib.History

/-!
# Outstanding I/O

An awaiter takes an entry of the submission queue and calls `add_io_submit`;
`poll_submit` retires a batch of completions after all of its callbacks have
run.  Over a run, `m_num_io_wait_submit` and `m_num_io_running` together are
the operations that were prepared and not retired yet, wherever these are.

Neither an early `proxy.submit()` nor the result of a submit has an influence
on the counts, and a callback that executes a coroutine which prepares another
operation adds to the other counter than the one that the batch is taken from.
-/

namespace SheepCoro.Context

open Lib

/-- The operations that were prepared and retired so far. -/
structure Traffic where
  prepared : Nat
  retired : Nat
deriving DecidableEq

def Traffic.after (s : State) (a : Label) (t : Traffic) : Traffic :=
  match a, s.pc with
  | .act .prepareIo, _ => { t with prepared := t.prepared + 1 }
  | .run _, .handle 0 num => { t with retired := t.retired + num }
  | _, _ => t

/-- The traffic of a run. -/
def traffic (cfg : Config) (s : State) (as : List Label) : Traffic :=
  (machine cfg).history Traffic.after s ⟨0, 0⟩ as

/-- What was prepared and not retired is counted. -/
def Counted (s : State) (t : Traffic) : Prop :=
  s.numIoWaitSubmit + s.numIoRunning + t.retired = t.prepared

section Steps

variable {cfg : Config} {s s' : State} {t : Traffic}

/-- A step that leaves the counters and the traffic alone. -/
theorem Counted.congr {a : Label} (h : Counted s t) (hwait : s'.numIoWaitSubmit = s.numIoWaitSubmit)
    (hrunning : s'.numIoRunning = s.numIoRunning) (ht : t.after s a = t) :
    Counted s' (t.after s a) := by
  unfold Counted
  rw [hwait, hrunning, ht]
  exact h

theorem wakeUp_counters (hs : s.wakeUp = some s') :
    s'.numIoWaitSubmit = s.numIoWaitSubmit ∧ s'.numIoRunning = s.numIoRunning := by
  obtain ⟨c, _, rfl⟩ := wakeUp_frame hs
  exact ⟨rfl, rfl⟩

theorem submitTask_counters (cfg : Config) (s : State) (h : Nat) :
    (s.submitTask cfg h).numIoWaitSubmit = s.numIoWaitSubmit ∧
      (s.submitTask cfg h).numIoRunning = s.numIoRunning := by
  unfold State.submitTask
  split_ifs <;> exact ⟨rfl, rfl⟩

theorem Counted.act {a : Action} (h : Counted s t) (hs : act cfg s a = some s') :
    Counted s' (t.after s (.act a)) := by
  unfold Counted at h
  cases a with
  | prepareIo =>
    obtain ⟨_, ⟨⟩⟩ := Option.ite_none_right_eq_some.mp hs
    simp only [Counted, Traffic.after]
    omega
  | submit hd =>
    simp only [Context.act, Option.some.injEq] at hs
    subst hs
    obtain ⟨hwait, hrunning⟩ := submitTask_counters cfg s hd
    exact Counted.congr h hwait hrunning rfl
  | earlySubmit num | unregisterWait =>
    obtain ⟨_, ⟨⟩⟩ := Option.ite_none_right_eq_some.mp hs
    exact h
  | registerWait =>
    simp only [Context.act, Option.some.injEq] at hs
    subst hs
    exact h

theorem Counted.run {num : Nat} (h : Counted s t) (hb : Books s)
    (hs : runStep cfg s num s.pc = some s') : Counted s' (t.after s (.run num)) := by
  unfold Counted at h
  cases runStep_cases hs with
  | @handled n hp =>
    have hbatch := (hb.batch 0 n hp).2
    simp only [Counted, Traffic.after, hp]
    omega
  | submit hp =>
    have ht : t.after s (.run num) = t := by simp [Traffic.after, hp]
    rw [ht]
    simp only [Counted]
    omega
  | stopWake hp hu =>
    obtain ⟨hwait, hrunning⟩ := wakeUp_counters hu
    exact Counted.congr h hwait hrunning (by simp [Traffic.after, hp])
  | exit hp | enter hp | sample hp | pop hp | worked hp | empty hp | waits hp | idle hp
  | back hp | stopped hp | stopSelf hp | submitNone hp | readCqe hp | read hp | peekNone hp
  | peek hp =>
    exact Counted.congr h rfl rfl (by simp [Traffic.after, hp])

theorem Counted.step {a : Label} (h : Counted s t) (hb : Books s)
    (hs : step cfg s a = some s') : Counted s' (t.after s a) := by
  cases step_cases hs with
  | run _ hrun => exact h.run hb hrun
  | act _ _ hact => exact h.act hact
  | @callback hd left num =>
    obtain ⟨hwait, hrunning⟩ := submitTask_counters cfg (s.goto (.handle left num)) hd
    exact h.congr hwait hrunning rfl
  | wakeUp _ hwrite | write _ hwrite | writeStop _ hwrite =>
    obtain ⟨hwait, hrunning⟩ := wakeUp_counters hwrite
    exact h.congr hwait hrunning rfl
  | leave | start | stopImpl | push | requestStop | unregisterWait | complete | signal =>
    exact h.congr rfl rfl rfl

end Steps

/-- Over every run of a context the two counters together are the operations
that are in the submission queue, with the kernel or in the completion queue,
and those are the ones that were prepared and not retired; a retired batch
never exceeds `m_num_io_running` or the completion queue, and `empty_io` is
true exactly when nothing is outstanding. -/
theorem io_accounting (cfg : Config) (s : State) (as : List Label)
    (hrun : (machine cfg).run newState as = some s) :
    s.sq + s.inflight + s.cq = s.numIoWaitSubmit + s.numIoRunning ∧
    s.numIoWaitSubmit + s.numIoRunning + (traffic cfg newState as).retired =
      (traffic cfg newState as).prepared ∧
    (∀ left num, s.pc = .handle left num → num ≤ s.cq ∧ num ≤ s.numIoRunning) ∧
    (s.emptyIo ↔ s.sq = 0 ∧ s.inflight = 0 ∧ s.cq = 0) ∧
    (s.emptyIo ↔ (traffic cfg newState as).retired = (traffic cfg newState as).prepared) := by
  have hreach : (machine cfg).Reachable newState := .init rfl
  have hcounted : Counted s (traffic cfg newState as) :=
    Machine.history_invariant (I := Counted)
      (fun s a s' t hr ht hs => ht.step (books_of_reachable hr) hs) hreach rfl hrun
  have hbooks := books_of_reachable (hreach.run hrun)
  have hledger := hbooks.ledger
  unfold Counted at hcounted
  unfold State.emptyIo
  refine ⟨hledger, hcounted, hbooks.batch, ?_, ?_⟩
  · omega
  · omega

/-- One entry in the task queue and one in the submission queue. -/
def tightConfig : Config where
  queCap := 1
  maxRecursiveDepth := 1
  sqEntries := 1
  scheduled := true

/-- A task prepares two operations, and submits the first one early.  Both
complete.  The callback of the second one finds the task queue full, and the
coroutine that it executes prepares a third operation before the batch is
retired. -/
def nestedIo : List Label :=
  [.push 0, .write, .start, .run 0, .run 0, .run 0, .act .prepareIo, .act (.earlySubmit 1),
    .act .prepareIo, .complete, .signal, .leave, .run 0, .run 0, .run 1, .complete, .signal,
    .run 0, .run 2, .callback 1, .wakeUp, .callback 2, .act .prepareIo, .leave, .run 0]

theorem io_accounting_nested :
    ∃ s, (machine tightConfig).run newState nestedIo = some s ∧
      s.numIoWaitSubmit + s.numIoRunning = 1 ∧ s.sq + s.inflight + s.cq = 1 ∧ ¬ s.emptyIo := by
  have hsome : ((machine tightConfig).run newState nestedIo).isSome = true := by decide
  obtain ⟨s, hs⟩ := Option.isSome_iff_exists.mp hsome
  have htraffic : traffic tightConfig newState nestedIo = ⟨3, 2⟩ := by decide
  obtain ⟨hledger, hcounted, -, -, hempty⟩ := io_accounting tightConfig s nestedIo hs
  rw [htraffic] at hcounted hempty
  dsimp only at hcounted hempty
  refine ⟨s, hs, by omega, by omega, fun hnothing => ?_⟩
  have hequal := hempty.mp hnothing
  omega

end SheepCoro.Context
