import Mathlib.Logic.Function.Basic
import Mathlib.Data.List.Basic

/-!
# Machines, guarded runs and invariants

A machine is an executable step function on a state type, with a predicate
for the states a run may start from.  The label of a step says which thread
moves and how every choice that the program does not make (a spurious
failure, the next event of the environment) is resolved, so `step` is a
function and a run is a list of labels.

`ReachableUnder guard` is the set of states that a run reaches when every
one of its steps meets `guard`, a condition on the state before the step and
on the label.  `Reachable` is the case without a condition.  A safety result
about every run is an invariant (`ReachableUnder.invariant`); a result about
one bad run is a list of labels (`reachable_of_run`).
-/

namespace Lib

universe u v

/-- A labelled machine. -/
structure Machine (σ : Type u) (α : Type v) where
  /-- The states in which a run may start. -/
  init : σ → Prop
  /-- One atomic step; `none` when the label is not enabled. -/
  step : σ → α → Option σ

namespace Machine

variable {σ : Type u} {α : Type v} (M : Machine σ α)

/-- The states reached by runs whose every step meets `guard`. -/
inductive ReachableUnder (guard : σ → α → Prop) : σ → Prop
  | init {s : σ} : M.init s → ReachableUnder guard s
  | step {s s' : σ} {a : α} : ReachableUnder guard s → guard s a →
      M.step s a = some s' → ReachableUnder guard s'

/-- The states reached by any run. -/
def Reachable (s : σ) : Prop :=
  M.ReachableUnder (fun _ _ => True) s

/-- Run a list of labels; `none` when one of them is not enabled or does not
meet the condition. -/
def runUnder (guard : σ → α → Prop) [∀ s, DecidablePred (guard s)] (s : σ) :
    List α → Option σ
  | [] => some s
  | a :: as => if guard s a then (M.step s a).bind fun s' => runUnder guard s' as else none

/-- Run a list of labels without a condition. -/
def run (s : σ) (as : List α) : Option σ :=
  M.runUnder (fun _ _ => True) s as

variable {M}

/-- The invariant rule for guarded runs.  The step case may use that the
state before the step is itself reached by a guarded run, so an invariant
that was proved earlier can be called there. -/
theorem ReachableUnder.invariant {guard : σ → α → Prop} {I : σ → Prop}
    (hinit : ∀ s, M.init s → I s)
    (hstep : ∀ s a s', M.ReachableUnder guard s → I s → guard s a →
      M.step s a = some s' → I s')
    {s : σ} (h : M.ReachableUnder guard s) : I s := by
  induction h with
  | init h0 => exact hinit _ h0
  | step hr hg hs ih => exact hstep _ _ _ hr ih hg hs

/-- The invariant rule for runs without a condition. -/
theorem Reachable.invariant {I : σ → Prop}
    (hinit : ∀ s, M.init s → I s)
    (hstep : ∀ s a s', M.Reachable s → I s → M.step s a = some s' → I s')
    {s : σ} (h : M.Reachable s) : I s :=
  ReachableUnder.invariant hinit (fun s a s' hr hi _ hs => hstep s a s' hr hi hs) h

/-- A stronger condition on the steps reaches fewer states. -/
theorem ReachableUnder.mono {g g' : σ → α → Prop} (hg : ∀ s a, g s a → g' s a)
    {s : σ} (h : M.ReachableUnder g s) : M.ReachableUnder g' s := by
  induction h with
  | init h0 => exact .init h0
  | step _ hga hs ih => exact .step ih (hg _ _ hga) hs

theorem ReachableUnder.reachable {guard : σ → α → Prop} {s : σ}
    (h : M.ReachableUnder guard s) : M.Reachable s :=
  h.mono fun _ _ _ => trivial

/-- An executed list of labels reaches its last state. -/
theorem ReachableUnder.run {guard : σ → α → Prop} [∀ s, DecidablePred (guard s)] {s t : σ}
    {as : List α} (h : M.ReachableUnder guard s) (hrun : M.runUnder guard s as = some t) :
    M.ReachableUnder guard t := by
  induction as generalizing s with
  | nil =>
    simp only [runUnder, Option.some.injEq] at hrun
    exact hrun ▸ h
  | cons a as ih =>
    simp only [runUnder, Option.ite_none_right_eq_some, Option.bind_eq_some_iff] at hrun
    obtain ⟨hg, u, hu, hrest⟩ := hrun
    exact ih (.step h hg hu) hrest

/-- An executed list of labels whose last state passes a test gives a state
of a guarded run that passes it. -/
theorem reachableUnder_of_run {guard : σ → α → Prop} [∀ s, DecidablePred (guard s)] {s : σ}
    {l : List α} {p : σ → Bool} (h0 : M.init s)
    (hrun : (M.runUnder guard s l).map p = some true) :
    ∃ t, M.ReachableUnder guard t ∧ p t = true := by
  obtain ⟨t, ht, htest⟩ := Option.map_eq_some_iff.mp hrun
  exact ⟨t, (ReachableUnder.init h0).run ht, htest⟩

/-- The case without a condition. -/
theorem reachable_of_run {s : σ} {l : List α} {p : σ → Bool} (h0 : M.init s)
    (hrun : (M.run s l).map p = some true) :
    ∃ t, M.Reachable t ∧ p t = true :=
  reachableUnder_of_run h0 hrun

end Machine

end Lib
