import SheepCoro.Sync.Frame

/-!
# Waiting with a predicate

The machine of `SheepCoro.Sync` with the data that the mutex protects.  A
predicate is a function of the data, an awaiter keeps the one that it was
given, and the data changes only in the hands of a coroutine that runs with
the lock.

The predicate of a waiter is evaluated in `resume()`, by the thread that
passes the lock on, and the waiter runs some time later.  From the evaluation
on it is the holder, though it does not run, and nobody else changes the data
as long as there is a holder that does not run (`Settled`).
-/

namespace SheepCoro.Monitor

open Lib

structure State (ι κ ν σ : Type) where
  sync : Sync.State ι κ ν
  /-- What the mutex protects. -/
  data : σ
  /-- `m_cond` of an awaiter. -/
  cond : ι → σ → Bool

variable {ι κ ν σ : Type} [DecidableEq ι] [DecidableEq κ] [DecidableEq ν]

inductive Label (ι κ ν σ : Type)
  /-- A step of the mutex or of a condition variable that is not about a
  predicate. -/
  | sync (l : Sync.Label ι κ ν)
  /-- `co_await wait(mtx, cond)`. -/
  | wait (i : ι) (k : κ) (cond : σ → Bool)
  /-- The predicate of `i` is evaluated. -/
  | eval (i : ι)
  /-- A coroutine that runs with the lock changes the data. -/
  | modify (i : ι) (f : σ → σ)

/-- The step is not about a predicate. -/
def plain : Sync.Label ι κ ν → Bool
  | .wait _ _ hasCond => !hasCond
  | .eval _ _ => false
  | _ => true

def step (s : State ι κ ν σ) : Label ι κ ν σ → Option (State ι κ ν σ)
  | .sync l =>
    if plain l = true then (Sync.step s.sync l).map fun y => { s with sync := y } else none
  | .wait i k cond =>
    (Sync.step s.sync (.wait i k true)).map fun y =>
      { s with sync := y, cond := Function.update s.cond i cond }
  | .eval i =>
    (Sync.step s.sync (.eval i (s.cond i s.data))).map fun y => { s with sync := y }
  | .modify i f => if s.sync.hold i = .inside then some { s with data := f s.data } else none

variable (ι κ ν σ) in
def machine : Machine (State ι κ ν σ) (Label ι κ ν σ) where
  init s := Sync.Init s.sync
  step := step

section Lemmas

variable {x y : Sync.State ι κ ν} {i : ι} {k : κ}

/-- Without an evaluation nobody comes to run behind its predicate. -/
theorem granted_step {l : Sync.Label ι κ ν} (hs : Sync.step x l = some y)
    (hl : ∀ j value, l ≠ .eval j value) (hi : y.hold i = .granted)
    (hk : y.kind i = .cvAwaiter k true) :
    x.hold i = .granted ∧ x.kind i = .cvAwaiter k true := by
  have hkind : x.kind i = .cvAwaiter k true := by
    rcases Sync.step_kind (j := i) hs with heq | ⟨-, -, hnew⟩ | ⟨k', hasCond, rfl, -⟩
    · rw [← heq]
      exact hk
    · rw [hk] at hnew
      cases hnew
    · -- The coroutine that waits does not run on in the same step.
      obtain ⟨_, ⟨⟩⟩ := Option.ite_none_right_eq_some.mp hs
      simp only [Sync.State.setHold, Function.update_self] at hi
      cases hasCond <;> cases hi
  have harrives := Sync.step_arrives (j := i) hs (by rw [hi]; trivial)
  generalize hx : y.hold i = h at harrives
  rw [hi] at hx
  cases harrives with
  | stays => exact ⟨hx.symm, hkind⟩
  | inside => cases hx
  | granted =>
    rw [hkind] at hx
    cases hx
  | @wait k' hasCond => cases hasCond <;> cases hx
  | evalWait | evalResume => exact absurd rfl (hl i _)

end Lemmas

section Steps

variable {s s' : State ι κ ν σ} {i : ι} {k : κ} {a : Label ι κ ν σ}

/-- Whoever was resumed behind its predicate has it true. -/
structure Settled (s : State ι κ ν σ) : Prop where
  good : Sync.Good s.sync
  granted : ∀ i k, s.sync.hold i = .granted → s.sync.kind i = .cvAwaiter k true →
    s.cond i s.data = true

theorem Settled.sync {l : Sync.Label ι κ ν} (h : Settled s)
    (hs : step s (.sync l) = some s') : Settled s' := by
  obtain ⟨hl, hs⟩ := Option.ite_none_right_eq_some.mp hs
  obtain ⟨y, hy, rfl⟩ := Option.map_eq_some_iff.mp hs
  refine ⟨h.good.step hy, fun i k hi hk => ?_⟩
  have heval : ∀ j value, l ≠ .eval j value := by
    rintro j value rfl
    cases hl
  obtain ⟨hold, hkind⟩ := granted_step hy heval hi hk
  exact h.granted i k hold hkind

theorem Settled.wait {cond : σ → Bool} (h : Settled s)
    (hs : step s (.wait i k cond) = some s') : Settled s' := by
  obtain ⟨y, hy, rfl⟩ := Option.map_eq_some_iff.mp hs
  refine ⟨h.good.step hy, fun j k' hj hk => ?_⟩
  obtain ⟨hold, hkind⟩ := granted_step hy (by simp) hj hk
  -- The coroutine that waits runs with the lock, so it is not the one that
  -- was resumed.
  have hinside := (Option.ite_none_right_eq_some.mp hy).1
  have hne : j ≠ i := by
    rintro rfl
    rw [hinside] at hold
    cases hold
  simp only [Function.update_of_ne hne]
  exact h.granted j k' hold hkind

theorem Settled.eval (h : Settled s) (hs : step s (.eval i) = some s') : Settled s' := by
  obtain ⟨y, hy, rfl⟩ := Option.map_eq_some_iff.mp hs
  refine ⟨h.good.step hy, fun j k hj hk => ?_⟩
  simp only [Sync.step] at hy
  split at hy
  · cases hy
    have hold : s.sync.hold j = .granted := by
      apply of_update_eq hj
      split <;> simp
    exact h.granted j k hold hk
  · cases hy
    rcases update_eq_iff.mp hj with ⟨rfl, hnew⟩ | ⟨_, hold⟩
    · split_ifs at hnew with hcond
      exact hcond
    · exact h.granted j k hold hk
  · cases hy

theorem Settled.modify {f : σ → σ} (h : Settled s) (hs : step s (.modify i f) = some s') :
    Settled s' := by
  obtain ⟨hinside, ⟨⟩⟩ := Option.ite_none_right_eq_some.mp hs
  refine ⟨h.good, fun j k hj _ => ?_⟩
  have hsame : i = j := h.good.unique (by simp [hinside]) (by simp [show s.sync.hold j = _ from hj])
  subst hsame
  rw [show s.sync.hold i = _ from hj] at hinside
  cases hinside

theorem settled_of_reachable (h : (machine ι κ ν σ).Reachable s) : Settled s := by
  refine h.invariant (I := Settled) (fun s h0 => ?_) fun s a s' _ hI hs => ?_
  · refine ⟨Sync.Init.good h0, fun i k hi => ?_⟩
    rw [Sync.Init.hold h0 i] at hi
    cases hi
  · cases a with
    | sync l => exact hI.sync hs
    | wait i k cond => exact hI.wait hs
    | eval i => exact hI.eval hs
    | modify i f => exact hI.modify hs

end Steps

/-- The coroutine runs with the lock, nobody else has it, and its predicate is
true of the data. -/
structure Returned (s : State ι κ ν σ) (i : ι) : Prop where
  runs : s.sync.hold i = .inside
  locked : s.sync.state ≠ .nolocked
  sole : ∀ j, s.sync.hold j ≠ .none → j = i
  cond : s.cond i s.data = true

/-- Whenever a coroutine runs past `co_await wait(mtx, cond)` it is the only
owner of the mutex and the predicate is true: when it runs on after it was
resumed, and when the predicate was true at once. -/
theorem wait_returns (s : State ι κ ν σ) (h : (machine ι κ ν σ).Reachable s) (i : ι) :
    (∀ k t, s.sync.kind i = .cvAwaiter k true → step s (.sync (.enter i)) = some t →
      Returned t i) ∧
    ∀ t, s.sync.hold i = .evalWait → step s (.eval i) = some t → t.sync.hold i = .inside →
      Returned t i := by
  have hreturned : ∀ t : State ι κ ν σ, Settled t → t.sync.hold i = .inside →
      t.cond i t.data = true → Returned t i := by
    intro t ht hi hcond
    refine ⟨hi, fun hfree => ?_, fun j hj => ht.good.unique hj (by simp [hi]), hcond⟩
    rw [ht.good.free_iff.mp hfree i] at hi
    cases hi
  have hsettled := settled_of_reachable h
  refine ⟨fun k t hk hs => ?_, fun t hi hs hinside => ?_⟩
  · have ht := hsettled.sync hs
    simp only [step, plain, if_true] at hs
    obtain ⟨y, hy, rfl⟩ := Option.map_eq_some_iff.mp hs
    obtain ⟨hgranted, ⟨⟩⟩ := Option.ite_none_right_eq_some.mp hy
    exact hreturned _ ht (by simp [Sync.State.setHold]) (hsettled.granted i k hgranted hk)
  · have ht := hsettled.eval hs
    obtain ⟨y, hy, rfl⟩ := Option.map_eq_some_iff.mp hs
    apply hreturned _ ht hinside
    simp only [Sync.step, hi, Option.some.injEq] at hy
    subst hy
    simp only [Sync.State.setHold, Function.update_self] at hinside
    by_contra hfalse
    simp [hfalse] at hinside

/-- A new mutex with a number to protect. -/
def counterState : State Nat Unit Unit Nat where
  sync := Sync.emptyState
  data := 0
  cond _ _ := false

/-- Coroutine 0 waits for the number to be two.  Coroutine 1 increments it
twice and notifies each time, and the waiter parks again in between. -/
def parksTwice : List (Label Nat Unit Unit Nat) :=
  [.sync (.tryLock 0), .wait 0 () (· == 2), .eval 0, .sync (.registerCv 0), .sync (.unlock 0),
    .sync (.unlock 0), .sync (.tryLock 1), .modify 1 (· + 1), .sync (.notifyOne ()),
    .sync (.registerLock 0 false), .sync (.registerLock 0 false), .sync (.callUnlock 1),
    .sync (.unlock 1), .sync (.unlock 1), .sync (.unlock 1), .sync (.unlock 1), .sync (.unlock 1),
    .sync (.unlock 1), .eval 0, .sync (.registerCv 0), .sync (.unlock 0), .sync (.unlock 0),
    .sync (.tryLock 1), .modify 1 (· + 1), .sync (.callUnlock 1), .sync (.unlock 1),
    .sync (.unlock 1), .sync (.notifyOne ()), .sync (.registerLock 0 false),
    .sync (.registerLock 0 false), .eval 0]

theorem wait_returns_parks_twice :
    ∃ s t, (machine Nat Unit Unit Nat).Reachable s ∧ s.sync.hold 0 = .granted ∧ s.data = 2 ∧
      step s (.sync (.enter 0)) = some t ∧ Returned t 0 := by
  have hrun : ((machine Nat Unit Unit Nat).run counterState parksTwice).map (fun s =>
      decide (s.sync.hold 0 = .granted ∧ s.data = 2 ∧ s.sync.kind 0 = .cvAwaiter () true)) =
        some true := by decide
  obtain ⟨s, hs, htest⟩ := Machine.reachable_of_run Sync.init_emptyState hrun
  obtain ⟨hgranted, hdata, hkind⟩ := of_decide_eq_true htest
  have hstep : step s (.sync (.enter 0)) =
      some { s with sync := s.sync.setHold 0 .inside } := by
    simp [step, plain, Sync.step, hgranted]
  exact ⟨s, _, hs, hgranted, hdata, hstep, (wait_returns s hs 0).1 () _ hkind hstep⟩

end SheepCoro.Monitor
