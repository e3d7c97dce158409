import Mathlib.Data.List.Nodup
import SheepCoro.Scheduler.Overflow

/-!
# Context affinity

An awaiter keeps a reference to the context on which it was created, and wakes
its coroutine with `submit_task` of that context.  The queue of a context is
only emptied by its worker, so a coroutine that goes through the queue runs on
with the same `local_context()` and `local_engine()` as before.  `fixed_fds`
borrows, uses and returns a slot of `local_engine()` without keeping a
reference to it, so it needs that.

When the queue of the context is full, `submit_task` executes the coroutine on
the thread that called.  It asks whether this is some worker
(`is_in_working_state`), not whether it is the worker of the engine: a worker
of another context then runs the coroutine (`wake_leaves_home`).
-/

namespace SheepCoro.Scheduler

open Lib

variable {n : Nat}

/-- A wake-up of a coroutine of context `h` on another worker does not find the
queue of `h` full, or the coroutine is discarded. -/
def WakesHome (cfg : Config) (s : State n) : Label n → Prop
  | .wake w c => ∀ h, s.registered c = some h → h = w ∨
      (s.taskQueue h).length < cfg.queCap ∨ cfg.maxRecursiveDepth ≤ s.recursiveDepth h
  | _ => True

instance (cfg : Config) (s : State n) : DecidablePred (WakesHome cfg s)
  | .wake w c => inferInstanceAs (Decidable (∀ h, s.registered c = some h → h = w ∨
      (s.taskQueue h).length < cfg.queCap ∨ cfg.maxRecursiveDepth ≤ s.recursiveDepth h))
  | .run .. | .execOne .. | .callback .. | .act .. | .submitStep .. | .leave .. =>
    inferInstanceAs (Decidable True)

/-- A coroutine that is registered is on its way to the worker of its
context. -/
structure Home (v : View n) : Prop where
  queued : ∀ w c h, c ∈ v.queue w → v.registered c = some h → h = w
  active : ∀ w c h, c ∈ v.active w → v.registered c = some h → h = w
  fresh : ∀ c, v.place c = .fresh → v.registered c = none
  io : ∀ c i, v.place c = .io i → v.registered c = none
  submitted : ∀ w c, v.submission w = some c → v.registered c = none

section Home

variable {v : View n} {w : Fin n} {c : Nat}

theorem Home.put {p : Place n} (h : Home v)
    (hp : (∀ i, p ≠ .io i) ∧ p ≠ .fresh ∨ v.registered c = none) : Home (v.put c p) := by
  refine ⟨h.queued, h.active, fun d hd => ?_, fun d i hd => ?_, h.submitted⟩
  · rcases update_eq_iff.mp hd with ⟨rfl, heq⟩ | ⟨_, hold⟩
    · rcases hp with ⟨_, hne⟩ | hnone
      · exact absurd heq hne
      · exact hnone
    · exact h.fresh d hold
  · rcases update_eq_iff.mp hd with ⟨rfl, heq⟩ | ⟨_, hold⟩
    · rcases hp with ⟨hne, _⟩ | hnone
      · exact absurd heq (hne i)
      · exact hnone
    · exact h.io d i hold

theorem Home.push {e : Fin n} (h : Home v) (hc : ∀ u, v.registered c = some u → u = e) :
    Home (v.push e c) := by
  have hput := h.put (c := c) (p := .ready) (.inl ⟨by simp, by simp⟩)
  refine ⟨fun u d x hd hx => ?_, h.active, hput.fresh, hput.io, h.submitted⟩
  rcases mem_update_append hd with hold | ⟨rfl, rfl⟩
  · exact h.queued u d x hold hx
  · exact hc x hx

theorem Home.start (h : Home v) (hc : ∀ u, v.registered c = some u → u = w) :
    Home (v.start w c) := by
  have hput := h.put (c := c) (p := .running) (.inl ⟨by simp, by simp⟩)
  refine ⟨h.queued, fun u d x hd hx => ?_, hput.fresh, hput.io, h.submitted⟩
  rcases mem_update_cons hd with hold | ⟨rfl, rfl⟩
  · exact h.active u d x hold hx
  · exact hc x hx

/-- `submit_task` of the context that the coroutine is registered with. -/
theorem Home.outcome {cfg : Config} {s : State n} {e : Fin n} {v' : View n} (h : Home v)
    (hout : Outcome cfg s w e c v v') (hc : ∀ u, v.registered c = some u → u = e)
    (hinline : cfg.queCap ≤ (s.taskQueue e).length → s.recursiveDepth e < cfg.maxRecursiveDepth →
      ∀ u, v.registered c = some u → u = w) : Home v' := by
  cases hout with
  | push => exact h.push hc
  | discard => exact h.put (.inl ⟨by simp, by simp⟩)
  | inline hfull hdepth => exact h.start (hinline hfull hdepth)

/-- The running coroutine begins or ends a wait. -/
theorem Home.register {rest : List Nat} {r : Option (Fin n)} (h : Home v) (hwhere : Where v)
    (hact : v.active w = c :: rest) (hr : r = some w ∨ r = none) : Home (v.register c r) := by
  have hmem : c ∈ v.active w := by simp [hact]
  have hplace := hwhere.running w c hmem
  have hothers : ∀ {d x}, d ≠ c → (v.register c r).registered d = x → v.registered d = x :=
    fun hd hx => (Function.update_of_ne hd ..).symm.trans hx
  refine ⟨fun u d x hd hx => ?_, fun u d x hd hx => ?_, fun d hd => ?_, fun d i hd => ?_,
    fun u d hd => ?_⟩
  · refine h.queued u d x hd (hothers ?_ hx)
    rintro rfl
    rw [hwhere.queued u d hd] at hplace
    cases hplace
  · by_cases hdc : d = c
    · subst hdc
      have heq : r = some x := by simpa [View.register] using hx
      have huw := hwhere.one_worker u w d hd hmem
      rcases hr with rfl | rfl
      · cases heq
        exact huw.symm
      · cases heq
    · exact h.active u d x hd (hothers hdc hx)
  · have hne : d ≠ c := by
      rintro rfl
      rw [show v.place d = _ from hd] at hplace
      cases hplace
    exact (Function.update_of_ne hne ..).trans (h.fresh d hd)
  · have hne : d ≠ c := by
      rintro rfl
      rw [show v.place d = _ from hd] at hplace
      cases hplace
    exact (Function.update_of_ne hne ..).trans (h.io d i hd)
  · have hne : d ≠ c := by
      rintro rfl
      rw [hwhere.submitted u d hd] at hplace
      cases hplace
    exact (Function.update_of_ne hne ..).trans (h.submitted u d hd)

end Home

section Overload

variable {cfg : Config} {s : State n} {w : Fin n} {c : Nat}

/-- A coroutine of context 1 waits, one of context 0 runs, and each of the
queues has room for one task. -/
structure Waiting (cfg : Config) (s : State 2) : Prop where
  reachable : (started 2 cfg).Reachable s
  runs : Runs s 0
  registered : s.registered 1 = some 1
  place : s.place 1 = .parked
  length₀ : (s.taskQueue 0).length + 1 = cfg.queCap
  length₁ : (s.taskQueue 1).length + 1 = cfg.queCap
  recursiveDepth : s.recursiveDepth 1 = 0
  cur : s.cur = 2 * cfg.queCap
  fresh : ∀ c, 2 * cfg.queCap ≤ c → s.place c = .fresh

/-- The running coroutine submits two tasks, one to each context, and wakes
the coroutine of context 1. -/
theorem Waiting.wakes {s : State 2} (h : Waiting cfg s) (hcap : 0 < cfg.queCap)
    (hdepth : 0 < cfg.maxRecursiveDepth) :
    ∃ u v, (started 2 cfg).Reachable v ∧ step cfg u (.wake 0 1) = some v ∧
      ¬ WakesHome cfg u (.wake 0 1) := by
  have hroom₀ : (s.taskQueue 0).length < cfg.queCap := by
    have := h.length₀
    omega
  have htarget₀ : Fin.ofNat 2 s.cur = 0 := by
    rw [h.cur]
    simp [Fin.ofNat]
  obtain ⟨t, hrt, ht⟩ := h.runs.fills h.reachable (h.fresh _ (Nat.le_refl _)) htarget₀ hroom₀
  have hqueue : t.taskQueue 1 = s.taskQueue 1 := by simp [ht.taskQueue]
  have hroom₁ : (t.taskQueue 1).length < cfg.queCap := by
    have := h.length₁
    rw [hqueue]
    omega
  have hfresh : t.place (2 * cfg.queCap + 1) = .fresh := by
    rw [ht.place _ (by omega)]
    exact h.fresh _ (by omega)
  have htarget₁ : Fin.ofNat 2 t.cur = 1 := by
    rw [ht.cur, h.cur]
    ext
    simp only [Fin.ofNat]
    omega
  obtain ⟨u, hru, hu⟩ := ht.runs.fills hrt hfresh htarget₁ hroom₁
  have hreg : u.registered 1 = some 1 := by rw [hu.registered, ht.registered, h.registered]
  have hplace : u.place 1 = .parked := by
    rw [hu.place 1 (by omega), ht.place 1 (by omega), h.place]
  obtain ⟨x, rest, hstack, _, _⟩ := hu.runs.top
  have hstep : step cfg u (.wake 0 1) = some (u.submitTask cfg 0 1 1) := by
    simp [step, hreg, hplace, hstack, hu.runs.submission]
  refine ⟨u, _, hru.next (a := .wake 0 1) hstep, hstep, fun hguard => ?_⟩
  have hfull : (u.taskQueue 1).length = cfg.queCap := by
    rw [hu.taskQueue, Function.update_self, List.length_append, List.length_singleton, hqueue,
      h.length₁]
  have hzero : u.recursiveDepth 1 = 0 := by
    rw [hu.recursiveDepth, ht.recursiveDepth, h.recursiveDepth]
  rcases hguard 1 hreg with hne | hroom | hlimit
  · cases hne
  · omega
  · omega

end Overload

end SheepCoro.Scheduler
