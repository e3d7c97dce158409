import SheepCoro.Scheduler.Model
import SheepCoro.Lib.History
import SheepCoro.Lib.Update
import Mathlib.Tactic.Common

/-!
# Where the coroutines of a scheduler are

A coroutine that can run is in one place only: in the queue of one context,
in a `submit_task_impl` call on its way to a queue, or in one `exec_task` call
that has not come to its suspension yet.  `View` is what has to be known of a
state for that, and `Change` says once and for all what a step does to it.

`submit_task` has three outcomes (`Outcome`): the handle is pushed, it is
executed inline on the worker that called, or it is discarded.
-/

namespace SheepCoro.Scheduler

open Lib

/-- The coroutines of the calls that have not come to their suspension. -/
def actives {n : Nat} (xs : List (Exec n)) : List Nat :=
  (xs.filter fun x => !x.leaving).map (·.coro)

structure View (n : Nat) where
  queue : Fin n → List Nat
  submission : Fin n → Option Nat
  active : Fin n → List Nat
  place : Nat → Place n
  registered : Nat → Option (Fin n)

variable {n : Nat}

def State.view (s : State n) : View n where
  queue := s.taskQueue
  submission := Option.map (·.coro) ∘ s.submission
  active := actives ∘ s.stack
  place := s.place
  registered := s.registered

namespace View

def put (v : View n) (c : Nat) (p : Place n) : View n :=
  { v with place := Function.update v.place c p }

def push (v : View n) (e : Fin n) (c : Nat) : View n :=
  { v.put c .ready with queue := Function.update v.queue e (v.queue e ++ [c]) }

def start (v : View n) (w : Fin n) (c : Nat) : View n :=
  { v.put c .running with active := Function.update v.active w (c :: v.active w) }

def suspend (v : View n) (w : Fin n) (c : Nat) (rest : List Nat) (p : Place n) : View n :=
  { v.put c p with active := Function.update v.active w rest }

def submit (v : View n) (w : Fin n) (c : Nat) : View n :=
  { v.put c .ready with submission := Function.update v.submission w (some c) }

def register (v : View n) (c : Nat) (r : Option (Fin n)) : View n :=
  { v with registered := Function.update v.registered c r }

end View

/-- What `submit_task` of context `e`, called on worker `w`, makes of `v`.  The
state is only asked for the queue and for the depth of the inline calls. -/
inductive Outcome (cfg : Config) (s : State n) (w e : Fin n) (c : Nat) (v : View n) :
    View n → Prop
  | push (hroom : (s.taskQueue e).length < cfg.queCap) : Outcome cfg s w e c v (v.push e c)
  | discard (hfull : cfg.queCap ≤ (s.taskQueue e).length)
      (hdepth : cfg.maxRecursiveDepth ≤ s.recursiveDepth e) : Outcome cfg s w e c v (v.put c .ended)
  | inline (hfull : cfg.queCap ≤ (s.taskQueue e).length)
      (hdepth : s.recursiveDepth e < cfg.maxRecursiveDepth) : Outcome cfg s w e c v (v.start w c)

theorem Outcome.congr {cfg : Config} {s t : State n} {w e : Fin n} {c : Nat} {v v' : View n}
    (h : Outcome cfg t w e c v v') (hqueue : t.taskQueue = s.taskQueue)
    (hdepth : t.recursiveDepth = s.recursiveDepth) : Outcome cfg s w e c v v' := by
  cases h with
  | push hroom => exact .push (hqueue ▸ hroom)
  | discard hfull hlimit => exact .discard (hqueue ▸ hfull) (hdepth ▸ hlimit)
  | inline hfull hlimit => exact .inline (hqueue ▸ hfull) (hdepth ▸ hlimit)

section Step

variable {cfg : Config} {s s' : State n} {w : Fin n} {c : Nat}

/-- A worker in `context::run` moves no coroutine and makes no call. -/
theorem runStep_frame {num : Nat} (hs : runStep s w num (s.pc w) = some s') :
    s'.view = s.view ∧ s'.stack = s.stack := by
  cases runStep_cases hs with
  | exit | enter | worked | empty | waits | idle | back | fetchAnd | last | fetchSub | notify
  | notified | poll | reap => exact ⟨rfl, rfl⟩

end Step

/-! ## One place for every coroutine -/

structure Where (v : View n) : Prop where
  queued : ∀ w c, c ∈ v.queue w → v.place c = .ready
  submitted : ∀ w c, v.submission w = some c → v.place c = .ready
  running : ∀ w c, c ∈ v.active w → v.place c = .running
  queue_nodup : ∀ w, (v.queue w).Nodup
  active_nodup : ∀ w, (v.active w).Nodup
  one_queue : ∀ w w' c, c ∈ v.queue w → c ∈ v.queue w' → w = w'
  one_submission : ∀ w w' c, v.submission w = some c → v.submission w' = some c → w = w'
  one_worker : ∀ w w' c, c ∈ v.active w → c ∈ v.active w' → w = w'
  not_both : ∀ w w' c, c ∈ v.queue w → v.submission w' ≠ some c

/-- Nobody is about to run the coroutine. -/
structure View.Absent (v : View n) (c : Nat) : Prop where
  queue : ∀ w, c ∉ v.queue w
  submission : ∀ w, v.submission w ≠ some c
  active : ∀ w, c ∉ v.active w

section Where

variable {v : View n} {w : Fin n} {c : Nat}

theorem Where.absent (h : Where v) (hready : v.place c ≠ .ready)
    (hrunning : v.place c ≠ .running) : v.Absent c :=
  ⟨fun w hc => hready (h.queued w c hc), fun w hc => hready (h.submitted w c hc),
    fun w hc => hrunning (h.running w c hc)⟩

/-- The place of an absent coroutine does not matter. -/
theorem Where.put {p : Place n} (h : Where v) (ha : v.Absent c) : Where (v.put c p) := by
  have hkeep : ∀ {d : Nat} {q : Place n}, d ≠ c → v.place d = q → (v.put c p).place d = q :=
    fun hd hq => (Function.update_of_ne hd ..).trans hq
  refine ⟨fun w d hd => ?_, fun w d hd => ?_, fun w d hd => ?_, h.queue_nodup, h.active_nodup,
    h.one_queue, h.one_submission, h.one_worker, h.not_both⟩
  · exact hkeep (fun heq => ha.queue w (heq ▸ hd)) (h.queued w d hd)
  · exact hkeep (fun heq => ha.submission w (heq ▸ hd)) (h.submitted w d hd)
  · exact hkeep (fun heq => ha.active w (heq ▸ hd)) (h.running w d hd)

/-- Who is in the queue after a push. -/
theorem mem_update_append {f : Fin n → List Nat} {w e : Fin n} {d : Nat}
    (hd : d ∈ Function.update f e (f e ++ [c]) w) : d ∈ f w ∨ d = c ∧ w = e := by
  by_cases hw : w = e
  · subst hw
    rw [Function.update_self] at hd
    rcases List.mem_append.mp hd with hold | hnew
    · exact .inl hold
    · exact .inr ⟨List.mem_singleton.mp hnew, rfl⟩
  · rw [Function.update_of_ne hw] at hd
    exact .inl hd

theorem Where.push {e : Fin n} (h : Where v) (ha : v.Absent c) : Where (v.push e c) := by
  have hput := h.put (p := .ready) ha
  refine ⟨fun w d hd => ?_, hput.submitted, hput.running, fun w => ?_, h.active_nodup, ?_,
    h.one_submission, h.one_worker, fun w w' d hd hsub => ?_⟩
  · rcases mem_update_append hd with hold | ⟨rfl, -⟩
    · exact hput.queued w d hold
    · exact Function.update_self ..
  · by_cases hw : w = e
    · subst hw
      simp only [View.push, Function.update_self]
      refine List.nodup_append.mpr ⟨h.queue_nodup w, by simp, ?_⟩
      rintro d hd _ hc rfl
      exact ha.queue w (List.mem_singleton.mp hc ▸ hd)
    · simp only [View.push, Function.update_of_ne hw]
      exact h.queue_nodup w
  · intro w w' d hd hd'
    rcases mem_update_append hd with hold | ⟨rfl, rfl⟩
    · rcases mem_update_append hd' with hold' | ⟨rfl, rfl⟩
      · exact h.one_queue w w' d hold hold'
      · exact absurd hold (ha.queue w)
    · rcases mem_update_append hd' with hold' | ⟨-, rfl⟩
      · exact absurd hold' (ha.queue w')
      · rfl
  · rcases mem_update_append hd with hold | ⟨rfl, -⟩
    · exact h.not_both w w' d hold hsub
    · exact ha.submission w' hsub

theorem mem_update_cons {f : Fin n → List Nat} {w e : Fin n} {d : Nat}
    (hd : d ∈ Function.update f e (c :: f e) w) : d ∈ f w ∨ d = c ∧ w = e := by
  by_cases hw : w = e
  · subst hw
    rw [Function.update_self] at hd
    rcases List.mem_cons.mp hd with hnew | hold
    · exact .inr ⟨hnew, rfl⟩
    · exact .inl hold
  · rw [Function.update_of_ne hw] at hd
    exact .inl hd

theorem Where.start (h : Where v) (ha : v.Absent c) : Where (v.start w c) := by
  have hput := h.put (p := .running) ha
  refine ⟨hput.queued, hput.submitted, fun u d hd => ?_, h.queue_nodup, fun u => ?_,
    h.one_queue, h.one_submission, ?_, h.not_both⟩
  · rcases mem_update_cons hd with hold | ⟨rfl, -⟩
    · exact hput.running u d hold
    · exact Function.update_self ..
  · by_cases hu : u = w
    · subst hu
      simp only [View.start, Function.update_self]
      exact List.nodup_cons.mpr ⟨ha.active u, h.active_nodup u⟩
    · simp only [View.start, Function.update_of_ne hu]
      exact h.active_nodup u
  · intro u u' d hd hd'
    rcases mem_update_cons hd with hold | ⟨rfl, rfl⟩
    · rcases mem_update_cons hd' with hold' | ⟨rfl, rfl⟩
      · exact h.one_worker u u' d hold hold'
      · exact absurd hold (ha.active u)
    · rcases mem_update_cons hd' with hold' | ⟨-, rfl⟩
      · exact absurd hold' (ha.active u')
      · rfl

theorem Where.submit (h : Where v) (ha : v.Absent c) : Where (v.submit w c) := by
  have hput := h.put (p := .ready) ha
  -- A call is the new one or an old one.
  have hcalls : ∀ {u d}, (v.submit w c).submission u = some d →
      d = c ∧ u = w ∨ v.submission u = some d := by
    intro u d hd
    rcases update_eq_iff.mp hd with ⟨rfl, heq⟩ | ⟨_, hold⟩
    · cases heq
      exact .inl ⟨rfl, rfl⟩
    · exact .inr hold
  refine ⟨hput.queued, fun u d hd => ?_, hput.running, h.queue_nodup, h.active_nodup,
    h.one_queue, fun u u' d hd hd' => ?_, h.one_worker, fun u u' d hd hsub => ?_⟩
  · rcases hcalls hd with ⟨rfl, -⟩ | hold
    · exact Function.update_self ..
    · exact hput.submitted u d hold
  · rcases hcalls hd with ⟨rfl, rfl⟩ | hold
    · rcases hcalls hd' with ⟨-, rfl⟩ | hold'
      · rfl
      · exact absurd hold' (ha.submission u')
    · rcases hcalls hd' with ⟨rfl, rfl⟩ | hold'
      · exact absurd hold (ha.submission u)
      · exact h.one_submission u u' d hold hold'
  · rcases hcalls hsub with ⟨rfl, -⟩ | hold
    · exact ha.queue u hd
    · exact h.not_both u u' d hd hold

theorem Where.suspend {rest : List Nat} {p : Place n} (h : Where v)
    (hact : v.active w = c :: rest) : Where (v.suspend w c rest p) := by
  have hmem : c ∈ v.active w := by simp [hact]
  have hnodup := h.active_nodup w
  rw [hact, List.nodup_cons] at hnodup
  have hsub : ∀ {u d}, d ∈ Function.update v.active w rest u → d ∈ v.active u ∧ d ≠ c := by
    intro u d hd
    by_cases hu : u = w
    · subst hu
      rw [Function.update_self] at hd
      refine ⟨by simp [hact, hd], ?_⟩
      rintro rfl
      exact hnodup.1 hd
    · rw [Function.update_of_ne hu] at hd
      refine ⟨hd, ?_⟩
      rintro rfl
      exact hu (h.one_worker u w d hd hmem)
  have hdropped : Where { v with active := Function.update v.active w rest } := by
    refine ⟨h.queued, h.submitted, fun u d hd => h.running u d (hsub hd).1, h.queue_nodup,
      fun u => ?_, h.one_queue, h.one_submission,
      fun u u' d hd hd' => h.one_worker u u' d (hsub hd).1 (hsub hd').1, h.not_both⟩
    by_cases hu : u = w
    · subst hu
      simp only [Function.update_self]
      exact hnodup.2
    · simp only [Function.update_of_ne hu]
      exact h.active_nodup u
  refine hdropped.put ⟨fun u hd => ?_, fun u hd => ?_, fun u hd => (hsub hd).2 rfl⟩
  · have hrunning := h.running w c hmem
    rw [h.queued u c hd] at hrunning
    cases hrunning
  · have hrunning := h.running w c hmem
    rw [h.submitted u c hd] at hrunning
    cases hrunning

theorem Where.outcome {cfg : Config} {s : State n} {e : Fin n} {v' : View n} (h : Where v)
    (ha : v.Absent c) (hout : Outcome cfg s w e c v v') : Where v' := by
  cases hout with
  | push => exact h.push ha
  | discard => exact h.put ha
  | inline => exact h.start ha

end Where

/-! ## Runs that start with every handle in one queue -/

/-- A scheduler before `loop()`: the tasks that were submitted are queued, each
of them once. -/
structure Start (s : State n) : Prop where
  init : Init s
  queued : ∀ w c, c ∈ s.taskQueue w → s.place c = .ready
  nodup : ∀ w, (s.taskQueue w).Nodup
  one_queue : ∀ w w' c, c ∈ s.taskQueue w → c ∈ s.taskQueue w' → w = w'

def started (n : Nat) [NeZero n] (cfg : Config) : Machine (State n) (Label n) where
  init := Start
  step := step cfg

end SheepCoro.Scheduler
