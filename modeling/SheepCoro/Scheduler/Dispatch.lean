import SheepCoro.Lib.History
import SheepCoro.Lib.RoundRobin
import SheepCoro.Scheduler.Shutdown

/-!
# The dispatcher shares the tasks out

`dispatcher<round_robin>` of `include/coro/dispatcher.hpp` takes the next value
of `m_cur` modulo the number of contexts.  Submissions of different workers are
under way at the same time, and each takes its value in one step, so over a run
the contexts come up in turns, whoever submits and whatever happens in between.
`m_cur` has 64 bits; where it wraps around, a round is cut short unless the
number of contexts divides `2 ^ 64`.
-/

namespace SheepCoro.Scheduler

open Lib

variable {n : Nat} [NeZero n] {cfg : Config} {s₀ s s' : State n} {a : Label n}
  {as : List (Label n)}

/-- The context that a step picks for a task. -/
def dispatched (s : State n) : Label n → List (Fin n)
  | .submitStep w =>
    match s.submission w with
    | some ⟨_, .dispatch⟩ => [Fin.ofNat n s.cur]
    | _ => []
  | _ => []

section

omit [NeZero n]

theorem submitTask_cur {w e : Fin n} {c : Nat} : (s.submitTask cfg w e c).cur = s.cur := by
  unfold State.submitTask
  split_ifs <;> rfl

theorem runStep_cur {w : Fin n} {num : Nat} (hs : RunStep s w num s') : s'.cur = s.cur := by
  cases hs <;> rfl

theorem act_cur {w : Fin n} {x : Exec n} {rest : List (Exec n)} {b : Action}
    (hs : act s w x rest b = some s') : s'.cur = s.cur := by
  cases b with
  | unregister =>
    simp only [act] at hs
    split at hs
    · cases hs
      rfl
    · cases hs
  | register | park | startIo | finish | submit =>
    simp only [act] at hs
    obtain ⟨-, ⟨⟩⟩ := Option.ite_none_right_eq_some.mp hs
    rfl

end

/-- A step picks the next context, or leaves `m_cur` alone. -/
theorem dispatch_step (hs : step cfg s a = some s') :
    dispatched s a = [] ∧ s'.cur = s.cur ∨
      dispatched s a = [Fin.ofNat n s.cur] ∧ s'.cur = (s.cur + 1) % 2 ^ 64 := by
  cases step_cases hs with
  | run _ hrun => exact .inl ⟨rfl, runStep_cur (runStep_cases hrun)⟩
  | execOne | leave => exact .inl ⟨rfl, rfl⟩
  | callback | wake => exact .inl ⟨rfl, submitTask_cur⟩
  | act _ _ _ _ hact => exact .inl ⟨rfl, act_cur hact⟩
  | @submitStep w c pc hx =>
    cases pc with
    | dispatch =>
      right
      exact ⟨by simp only [dispatched, hx], rfl⟩
    | fetchOr | fetchAdd =>
      left
      exact ⟨by simp only [dispatched, hx], rfl⟩
    | push =>
      left
      exact ⟨by simp only [dispatched, hx], submitTask_cur⟩

/-- The contexts come up in turns. -/
theorem turns_run (hcur : s₀.cur < 2 ^ 64) (hrun : (machine n cfg).run s₀ as = some s) :
    ∃ d, (machine n cfg).shown dispatched s₀ as = turns (2 ^ 64) n s₀.cur d ∧
      s.cur = (s₀.cur + d) % 2 ^ 64 := by
  refine Machine.path_invariant (I := fun as s => ∃ d,
    (machine n cfg).shown dispatched s₀ as = turns (2 ^ 64) n s₀.cur d ∧
      s.cur = (s₀.cur + d) % 2 ^ 64) ⟨0, rfl, (Nat.mod_eq_of_lt hcur).symm⟩ ?_ hrun
  intro as s a s' hrun hI hs
  obtain ⟨d, hturns, hd⟩ := hI
  rw [Machine.shown_concat hrun hs]
  rcases dispatch_step hs with ⟨hnone, hsame⟩ | ⟨hpicked, hnext⟩
  · refine ⟨d, ?_, hsame.trans hd⟩
    rw [hnone, List.append_nil, hturns]
  · refine ⟨d + 1, ?_, ?_⟩
    · rw [turns_succ, hpicked, hturns, hd]
    · rw [hnext, hd, Nat.mod_add_mod, Nat.add_assoc]

/-- How the tasks of a run are shared out that begins with `m_cur` at `cur`. -/
structure Shares (cur : Nat) (picked : List (Fin n)) : Prop where
  turn : ∀ k, k < picked.length → picked[k]? = some (Fin.ofNat n ((cur + k) % 2 ^ 64))
  /-- Every time `m_cur` wraps around costs one more task. -/
  within : ∀ i j, picked.count i ≤ picked.count j + 1 + (cur + picked.length) / 2 ^ 64
  even : n ∣ 2 ^ 64 → ∀ i j, picked.count i ≤ picked.count j + 1

/-- In every run of the workers, the tasks are shared out evenly. -/
theorem dispatch_shares (n : Nat) [NeZero n] (cfg : Config) (s₀ s : State n)
    (as : List (Label n)) (hcur : s₀.cur < 2 ^ 64)
    (hrun : (machine n cfg).run s₀ as = some s) :
    Shares s₀.cur ((machine n cfg).shown dispatched s₀ as) := by
  obtain ⟨d, hturns, -⟩ := turns_run hcur hrun
  rw [hturns]
  refine ⟨?_, ?_, ?_⟩
  · intro k hk
    rw [length_turns] at hk
    unfold turns
    rw [List.getElem?_map, List.getElem?_range hk]
    rfl
  · intro i j
    rw [length_turns]
    exact turns_balanced hcur
  · intro hdvd i j
    rw [turns_of_dvd hdvd]
    exact straight_balanced

/-- The task `0` submits two more. -/
theorem dispatch_shares_two :
    ∃ s, (machine 2 ⟨16, 4⟩).run start [.run 0 0, .execOne 0 0, .act 0 (.submit 1),
        .submitStep 0, .submitStep 0, .submitStep 0, .submitStep 0, .act 0 (.submit 2),
        .submitStep 0] = some s ∧
      Shares 1 ((machine 2 ⟨16, 4⟩).shown dispatched start [.run 0 0, .execOne 0 0,
        .act 0 (.submit 1), .submitStep 0, .submitStep 0, .submitStep 0, .submitStep 0,
        .act 0 (.submit 2), .submitStep 0]) := by
  have hrun : ((machine 2 ⟨16, 4⟩).run start [.run 0 0, .execOne 0 0, .act 0 (.submit 1),
      .submitStep 0, .submitStep 0, .submitStep 0, .submitStep 0, .act 0 (.submit 2),
      .submitStep 0]).isSome = true := by decide
  obtain ⟨s, hs⟩ := Option.isSome_iff_exists.mp hrun
  exact ⟨s, hs, dispatch_shares 2 ⟨16, 4⟩ start s _ (by decide) hs⟩

end SheepCoro.Scheduler
