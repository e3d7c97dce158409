import SheepCoro.Lib.History
import SheepCoro.Lib.Owner

/-!
# Who owns a coroutine frame

The class `task` of `include/coro/task.hpp`.  A task object holds the handle of
a frame or null, and its operations pass the handle on, destroy the frame, or
let the handle go.  Any number of objects (`τ`) and frames (`φ`) take part;
the calls may come in any order.  Which frames were made, destroyed by a task
object, and let go by one is read off the calls of a run.

A frame that is destroyed takes the task objects along that live in it.  Their
destructors are calls of their own.
-/

namespace SheepCoro.Task

open Lib

/-- `coro_state`. -/
inductive CoroState
  | normal
  | detach
  | none
deriving DecidableEq

/-- The storage of a task. -/
inductive Object (φ : Type)
  /-- No task lives there. -/
  | raw
  | task (coroutine : Option φ)
deriving DecidableEq

/-- `m_coroutine`, when there is one. -/
def Object.coroutine {φ : Type} : Object φ → Option φ
  | .raw => none
  | .task coroutine => coroutine

structure State (τ φ : Type) where
  object : τ → Object φ
  /-- The state in the promise of every frame that was made. -/
  promise : φ → Option CoroState

inductive Label (τ φ : Type)
  /-- `task()`. -/
  | new (t : τ)
  /-- A coroutine is called: `get_return_object` of the promise of a new
  frame. -/
  | create (t : τ) (f : φ)
  /-- `task(task&& other)`. -/
  | moveConstruct (t other : τ)
  /-- `operator=(task&& other)`. -/
  | moveAssign (t other : τ)
  | destroy (t : τ)
  | detach (t : τ)
  /-- `handle() &&`. -/
  | handle (t : τ)
  /-- `~task()`. -/
  | destruct (t : τ)
deriving DecidableEq

variable {τ φ : Type} [DecidableEq τ] [DecidableEq φ]

/-- One call.  `detach` of an empty task has no defined result. -/
def step (s : State τ φ) : Label τ φ → Option (State τ φ)
  | .new t =>
    match s.object t with
    | .raw => some { s with object := Function.update s.object t (.task none) }
    | .task _ => none
  | .create t f =>
    match s.object t, s.promise f with
    | .raw, none =>
      some {
        object := Function.update s.object t (.task (some f))
        promise := Function.update s.promise f (some .normal) }
    | _, _ => none
  | .moveConstruct t other =>
    match s.object t, s.object other with
    | .raw, .task coroutine =>
      some { s with
        object := Function.update (Function.update s.object other (.task none)) t
          (.task coroutine) }
    | _, _ => none
  | .moveAssign t other =>
    match s.object t, s.object other with
    | .task _, .task coroutine =>
      if other ≠ t then
        some { s with
          object := Function.update (Function.update s.object other (.task none)) t
            (.task coroutine) }
      else some s
    | _, _ => none
  | .destroy t =>
    match s.object t with
    | .task _ => some { s with object := Function.update s.object t (.task none) }
    | .raw => none
  | .detach t =>
    match s.object t with
    | .task (some f) =>
      some {
        object := Function.update s.object t (.task none)
        promise := Function.update s.promise f (some .detach) }
    | _ => none
  | .handle t =>
    match s.object t with
    | .task _ => some { s with object := Function.update s.object t (.task none) }
    | .raw => none
  | .destruct t =>
    match s.object t with
    | .task _ => some { s with object := Function.update s.object t .raw }
    | .raw => none

/-- Before the first call. -/
structure Init (s : State τ φ) : Prop where
  object_raw : ∀ t, s.object t = .raw
  promise_none : ∀ f, s.promise f = none

variable (τ φ) in
def machine : Machine (State τ φ) (Label τ φ) where
  init := Init
  step := step

/-- The handle in a task object, null when there is no object. -/
def holds (s : State τ φ) (t : τ) : Option φ :=
  (s.object t).coroutine

/-- The frame that the call makes. -/
def made (_ : State τ φ) : Label τ φ → List φ
  | .create _ f => [f]
  | _ => []

/-- The frame that a task object destroys in the call. -/
def destroyed (s : State τ φ) : Label τ φ → List φ
  | .moveAssign t other => if other ≠ t then (holds s t).toList else []
  | .destroy t | .destruct t => (holds s t).toList
  | _ => []

/-- The frame that a task object lets go in the call. -/
def released (s : State τ φ) : Label τ φ → List φ
  | .detach t | .handle t => (holds s t).toList
  | _ => []

/-! ## What a call does -/

/-- A call leaves the handles alone, makes a frame, takes a handle out of an
object, or passes one on to an object whose own frame is destroyed. -/
inductive StepCase (s s' : State τ φ) (l : Label τ φ) : Prop
  | keep (hholds : holds s' = holds s) (hpromise : s'.promise = s.promise)
      (hmade : made s l = []) (hdestroyed : destroyed s l = []) (hreleased : released s l = [])
  | make (t : τ) (f : φ) (ht : holds s t = none) (hf : s.promise f = none)
      (hholds : holds s' = Function.update (holds s) t (some f))
      (hpromise : s'.promise = Function.update s.promise f (some .normal))
      (hmade : made s l = [f]) (hdestroyed : destroyed s l = []) (hreleased : released s l = [])
  | destroy (t : τ) (hholds : holds s' = Function.update (holds s) t none)
      (hpromise : s'.promise = s.promise) (hmade : made s l = [])
      (hdestroyed : destroyed s l = (holds s t).toList) (hreleased : released s l = [])
  | release (t : τ) (hholds : holds s' = Function.update (holds s) t none)
      (hpromise : s'.promise = s.promise ∨
        ∃ f, holds s t = some f ∧ s'.promise = Function.update s.promise f (some .detach))
      (hmade : made s l = []) (hdestroyed : destroyed s l = [])
      (hreleased : released s l = (holds s t).toList)
  | pass (t other : τ) (hne : other ≠ t)
      (hholds : holds s' =
        Function.update (Function.update (holds s) other none) t (holds s other))
      (hpromise : s'.promise = s.promise) (hmade : made s l = [])
      (hdestroyed : destroyed s l = (holds s t).toList) (hreleased : released s l = [])

omit [DecidableEq φ] in
theorem holds_update (s : State τ φ) (t : τ) (x : Object φ) (promise : φ → Option CoroState) :
    holds ⟨Function.update s.object t x, promise⟩ =
      Function.update (holds s) t x.coroutine :=
  Function.comp_update Object.coroutine s.object t x

omit [DecidableEq φ] in
theorem holds_update_update (s : State τ φ) (t other : τ) (x y : Object φ) :
    holds ⟨Function.update (Function.update s.object other y) t x, s.promise⟩ =
      Function.update (Function.update (holds s) other y.coroutine) t x.coroutine := by
  rw [← holds_update s other y s.promise]
  exact holds_update ⟨Function.update s.object other y, s.promise⟩ t x s.promise

theorem step_cases {s s' : State τ φ} {l : Label τ φ} (hs : step s l = some s') :
    StepCase s s' l := by
  cases l with
  | new t =>
    simp only [step] at hs
    split at hs
    · rename_i ht
      cases hs
      refine .keep ?_ rfl rfl rfl rfl
      rw [holds_update]
      exact Function.update_eq_self_iff.mpr (by simp [holds, ht, Object.coroutine])
    · cases hs
  | create t f =>
    simp only [step] at hs
    split at hs
    · rename_i ht hf
      cases hs
      exact .make t f (by simp [holds, ht, Object.coroutine]) hf (holds_update ..) rfl rfl rfl rfl
    · cases hs
  | moveConstruct t other =>
    simp only [step] at hs
    split at hs
    · rename_i coroutine ht ho
      cases hs
      have hne : other ≠ t := by
        rintro rfl
        cases ht.symm.trans ho
      have hfrom : holds s other = coroutine := by simp [holds, ho, Object.coroutine]
      refine .pass t other hne ?_ rfl rfl ?_ rfl
      · rw [hfrom]
        exact holds_update_update ..
      · simp [destroyed, holds, ht, Object.coroutine]
    · cases hs
  | moveAssign t other =>
    simp only [step] at hs
    split at hs
    · rename_i old coroutine ht ho
      have hfrom : holds s other = coroutine := by simp [holds, ho, Object.coroutine]
      split at hs
      · rename_i hne
        cases hs
        refine .pass t other hne ?_ rfl rfl (if_pos hne) rfl
        rw [hfrom]
        exact holds_update_update ..
      · rename_i hself
        cases hs
        exact .keep rfl rfl rfl (if_neg hself) rfl
    · cases hs
  | detach t =>
    simp only [step] at hs
    split at hs
    · rename_i f ht
      cases hs
      have hholds : holds s t = some f := by simp [holds, ht, Object.coroutine]
      exact .release t (holds_update ..) (.inr ⟨f, hholds, rfl⟩) rfl rfl rfl
    · cases hs
  | handle t =>
    simp only [step] at hs
    split at hs
    · cases hs
      exact .release t (holds_update ..) (.inl rfl) rfl rfl rfl
    · cases hs
  | destroy t =>
    simp only [step] at hs
    split at hs
    · cases hs
      exact .destroy t (holds_update ..) rfl rfl rfl rfl
    · cases hs
  | destruct t =>
    simp only [step] at hs
    split at hs
    · cases hs
      exact .destroy t (holds_update ..) rfl rfl rfl rfl
    · cases hs

/-! ## The account of the frames -/

/-- Every frame that was made has one task object, or was given up once. -/
def Accounted (s : State τ φ) (given : φ → Nat) : Prop :=
  Owned (holds s) (fun f => s.promise f ≠ none) given

theorem Accounted.step {s s' : State τ φ} {l : Label τ φ} {given : φ → Nat}
    (h : Accounted s given) (hs : step s l = some s') :
    Accounted s' fun f => given f + (destroyed s l ++ released s l).count f := by
  unfold Accounted
  cases step_cases hs with
  | keep hholds hpromise _ hdestroyed hreleased =>
    rw [hholds, hpromise, hdestroyed, hreleased]
    exact h
  | make t f ht hf hholds hpromise _ hdestroyed hreleased =>
    have hnew : ¬ s.promise f ≠ none := fun hne => hne hf
    have hmade : (fun g => s'.promise g ≠ none) = fun g => g = f ∨ s.promise g ≠ none := by
      funext g
      rw [hpromise]
      by_cases hg : g = f <;> simp [hg]
    rw [hholds, hmade, hdestroyed, hreleased]
    exact Owned.make h ht hnew
  | destroy t hholds hpromise _ hdestroyed hreleased =>
    rw [hholds, hpromise, hdestroyed, hreleased, List.append_nil]
    exact Owned.drop h t fun _ => rfl
  | release t hholds hpromise _ hdestroyed hreleased =>
    have hmade : (fun g => s'.promise g ≠ none) = fun g => s.promise g ≠ none := by
      rcases hpromise with hkeep | ⟨f, hf, hset⟩
      · rw [hkeep]
      · funext g
        rw [hset]
        by_cases hg : g = f
        · simp [hg, (h.held hf).1]
        · simp [hg]
    rw [hholds, hmade, hdestroyed, hreleased, List.nil_append]
    exact Owned.drop h t fun _ => rfl
  | pass t other hne hholds hpromise _ hdestroyed hreleased =>
    have hdrop := Owned.drop h t fun _ => rfl
    have hpass := hdrop.pass (t := t) other (Function.update_self ..)
    rw [Function.update_of_ne hne, Function.update_comm hne.symm, Function.update_idem] at hpass
    rw [hholds, hpromise, hdestroyed, hreleased, List.append_nil]
    exact hpass

end SheepCoro.Task
