import SheepCoro.Engine.Forest
import SheepCoro.Lib.Count
import Mathlib.Algebra.BigOperators.Group.Multiset.Basic
import Mathlib.Algebra.Order.BigOperators.Group.Finset

/-!
# Queued, waiting and running frames

The innermost frames are queued, held by a primitive, or run, each in one
place only.  `leaves` counts them over all the workers, and `handles` counts
the handles that the `exec_task` calls in progress were given.  The lemmas
say what a change of one queue or of the calls of one worker does to them.

`Stacks` holds in every run: the leaves head disjoint stacks of frames that
are not finished (`stacks_of_reachable`).
-/

namespace SheepCoro.Engine

open Lib

variable {n : Nat}

/-- The frame that runs. -/
def Call.cur (c : Call n) : Option Nat :=
  match c.point with
  | .frame f => some f
  | .awaitSuspend | .returned => none

theorem Call.cur_eq_some {c : Call n} {f : Nat} : c.cur = some f ↔ c.point = .frame f := by
  unfold Call.cur
  cases c.point <;> simp

/-- The innermost frames: queued, held by a primitive, or running. -/
def leaves (s : State n) : Multiset Nat :=
  ∑ w, (s.taskQueue w : Multiset Nat) + s.waiting +
    ∑ w, ((s.calls w).filterMap Call.cur : Multiset Nat)

/-- The handles that the calls in progress were given. -/
def handles (s : State n) : Multiset Nat :=
  ∑ w, ((s.calls w).map Call.handle : Multiset Nat)

variable {s u : State n} {w : Fin n} {c : Call n} {rest : List (Call n)} {f g : Nat}

theorem setCalls_self (hcalls : s.calls w = rest) : s.setCalls w rest = s := by
  unfold State.setCalls
  rw [← hcalls, Function.update_eq_self]

theorem forall_setCalls {P : Call n → Prop} {calls : List (Call n)}
    (hold : ∀ v, ∀ d ∈ s.calls v, P d) (hnew : ∀ d ∈ calls, P d) :
    ∀ v, ∀ d ∈ (s.setCalls w calls).calls v, P d :=
  (Function.forall_update_iff s.calls fun _ cs => ∀ d ∈ cs, P d).mpr ⟨hnew, fun v _ => hold v⟩

/-! ## The leaves and the handles -/

theorem handles_setCalls_cons :
    handles (s.setCalls w (c :: rest)) = c.handle ::ₘ handles (s.setCalls w rest) := by
  unfold handles State.setCalls
  rw [sum_update_eq (fun cs : List (Call n) => (cs.map Call.handle : Multiset Nat)),
    sum_update_eq (fun cs : List (Call n) => (cs.map Call.handle : Multiset Nat)),
    ← Multiset.cons_add]
  rfl

theorem handles_eq (hcalls : s.calls w = c :: rest) :
    handles s = c.handle ::ₘ handles (s.setCalls w rest) := by
  rw [← handles_setCalls_cons, setCalls_self hcalls]

/-- The innermost call moves on. -/
theorem handles_move (hcalls : s.calls w = c :: rest) (p : Point) :
    handles (s.setCalls w ({ c with point := p } :: rest)) = handles s := by
  rw [handles_setCalls_cons, handles_eq hcalls]

theorem mem_handles : g ∈ handles s ↔ ∃ w, ∃ c ∈ s.calls w, c.handle = g := by
  simp [handles, Multiset.mem_sum]

theorem leaves_setCalls (calls : List (Call n)) :
    leaves (s.setCalls w calls) = (calls.filterMap Call.cur : Multiset Nat) +
      leaves (s.setCalls w []) := by
  unfold leaves State.setCalls
  rw [sum_update_eq (fun cs : List (Call n) => (cs.filterMap Call.cur : Multiset Nat)),
    sum_update_eq (fun cs : List (Call n) => (cs.filterMap Call.cur : Multiset Nat))]
  simp only [List.filterMap_nil, Multiset.coe_nil, zero_add]
  exact add_left_comm ..

/-- A call that runs a frame. -/
theorem leaves_frame (hf : c.cur = some f) :
    leaves (s.setCalls w (c :: rest)) = f ::ₘ leaves (s.setCalls w rest) := by
  rw [leaves_setCalls, List.filterMap_cons_some hf, leaves_setCalls rest, ← Multiset.cons_coe,
    Multiset.cons_add]

/-- A call that runs no frame. -/
theorem leaves_idle (hf : c.cur = none) :
    leaves (s.setCalls w (c :: rest)) = leaves (s.setCalls w rest) := by
  rw [leaves_setCalls, List.filterMap_cons_none hf, leaves_setCalls rest]

theorem leaves_waiting (ws : List Nat) :
    leaves { s with waiting := f :: ws } = f ::ₘ leaves { s with waiting := ws } := by
  simp only [leaves, ← Multiset.cons_coe, Multiset.cons_add, Multiset.add_cons]

theorem leaves_take_waiting (hmem : f ∈ s.waiting) :
    leaves s = f ::ₘ leaves { s with waiting := s.waiting.erase f } := by
  rw [← leaves_waiting, leaves, leaves]
  rw [Multiset.coe_eq_coe.mpr (List.perm_cons_erase hmem)]

/-- One queue changes. -/
theorem leaves_queue (q : List Nat) :
    leaves { s with taskQueue := Function.update s.taskQueue w (f :: q) } =
      f ::ₘ leaves { s with taskQueue := Function.update s.taskQueue w q } := by
  simp only [leaves]
  rw [sum_update_eq (fun q : List Nat => (q : Multiset Nat)),
    sum_update_eq (fun q : List Nat => (q : Multiset Nat)), ← Multiset.cons_coe]
  simp only [Multiset.cons_add]

theorem leaves_perm {q q' : List Nat} (h : q.Perm q') :
    leaves { s with taskQueue := Function.update s.taskQueue w q } =
      leaves { s with taskQueue := Function.update s.taskQueue w q' } := by
  simp only [leaves]
  rw [sum_update_eq (fun q : List Nat => (q : Multiset Nat)),
    sum_update_eq (fun q : List Nat => (q : Multiset Nat)), Multiset.coe_eq_coe.mpr h]

theorem leaves_push : leaves { s with
    taskQueue := Function.update s.taskQueue w (s.taskQueue w ++ [f]) } = f ::ₘ leaves s := by
  rw [leaves_perm (List.perm_append_singleton f _), leaves_queue, Function.update_eq_self]

theorem leaves_take_queue (hmem : f ∈ s.taskQueue w) : leaves s = f ::ₘ leaves { s with
    taskQueue := Function.update s.taskQueue w ((s.taskQueue w).erase f) } := by
  rw [← leaves_queue, ← leaves_perm (List.perm_cons_erase hmem), Function.update_eq_self]

/-- A running frame is a leaf. -/
theorem mem_leaves_of_cur (hc : c ∈ s.calls w) (hf : c.cur = some f) : f ∈ leaves s := by
  refine Multiset.mem_add.mpr (.inr (Multiset.mem_sum.mpr ⟨w, Finset.mem_univ w, ?_⟩))
  exact Multiset.mem_coe.mpr (List.mem_filterMap.mpr ⟨c, hc, hf⟩)

theorem leaves_run (hcalls : s.calls w = c :: rest) (hf : c.cur = some f) :
    leaves s = f ::ₘ leaves (s.setCalls w rest) := by
  rw [← leaves_frame hf, setCalls_self hcalls]

theorem leaves_exec {inlineOf : Option (Fin n)} :
    leaves (execTask s w f inlineOf) = f ::ₘ leaves s := by
  have hself : (s.setStatus f .running).setCalls w (s.calls w) = s.setStatus f .running :=
    setCalls_self rfl
  rw [execTask, leaves_frame rfl, hself]
  rfl

theorem handles_exec {inlineOf : Option (Fin n)} :
    handles (execTask s w f inlineOf) = f ::ₘ handles s := by
  have hself : (s.setStatus f .running).setCalls w (s.calls w) = s.setStatus f .running :=
    setCalls_self rfl
  rw [execTask, handles_setCalls_cons, hself]
  rfl

/-! ## One step -/

section Step

variable {s' : State n} {cfg : Config}

/-- A handle is queued, discarded, or executed inline. -/
theorem submitTask_cases (cfg : Config) (s : State n) (target : Fin n) (handle : Nat)
    (caller : Option (Fin n)) :
    submitTask cfg s target handle caller = { s with
      taskQueue := Function.update s.taskQueue target (s.taskQueue target ++ [handle]) } ∨
    submitTask cfg s target handle caller = s ∨
    ∃ w, caller = some w ∧ submitTask cfg s target handle caller = execTask { s with
      recursiveDepth := Function.update s.recursiveDepth target (s.recursiveDepth target + 1) }
        w handle (some target) := by
  cases caller with
  | none =>
    by_cases hfull : (s.taskQueue target).length < cfg.queCap
    · exact .inl (if_pos hfull)
    · exact .inr (.inl (if_neg hfull))
  | some w =>
    unfold submitTask
    split_ifs
    · exact .inl rfl
    · exact .inr (.inl rfl)
    · exact .inr (.inr ⟨w, rfl, rfl⟩)

theorem step_run (h : step cfg s (.run w) = some s') : ∃ c rest f, s.calls w = c :: rest ∧
    c.cur = some f ∧ s' = runFrame s w c rest f := by
  simp only [step] at h
  split at h
  · next handle f inlineOf rest hcalls =>
    exact ⟨_, rest, f, hcalls, rfl, (Option.some.inj h).symm⟩
  · cases h

theorem step_leave (h : step cfg s (.leave w) = some s') : ∃ c rest, s.calls w = c :: rest ∧
    c.point = .awaitSuspend ∧ s' = s.setCalls w ({ c with point := .returned } :: rest) := by
  simp only [step] at h
  split at h
  · next handle inlineOf rest hcalls =>
    exact ⟨_, rest, hcalls, rfl, (Option.some.inj h).symm⟩
  · cases h

theorem step_check (h : step cfg s (.check w) = some s') : ∃ c rest, s.calls w = c :: rest ∧
    c.point = .returned ∧ s' = checkHandle s w c rest := by
  simp only [step] at h
  split at h
  · next handle inlineOf rest hcalls =>
    exact ⟨_, rest, hcalls, rfl, (Option.some.inj h).symm⟩
  · cases h

end Step

/-! ## The stacks of the frames -/

/-- What holds in every run.  `extra` are leaves that are just being handed
from one place to another. -/
structure Stacks (extra : Multiset Nat) (s : State n) : Prop where
  forest : Forest s.frames s.size (extra + leaves s)
  handle_lt : ∀ h ∈ handles s, h < s.size

section Stacks

variable {extra : Multiset Nat} {s' : State n} {cfg : Config} {a : Label n}

theorem Stacks.leaf_unfinished (h : Stacks extra s) (hf : f ∈ leaves s) :
    f < s.size ∧ (s.frames f).Unfinished := by
  obtain ⟨fs, hfs⟩ := h.forest.exists_stack (Multiset.mem_add.mpr (.inr hf))
  exact hfs.unfinished f (List.mem_cons_self ..)

theorem Stacks.create (h : Stacks 0 s) (body : Body) (detached : Bool) :
    Stacks {s.size} (s.create body detached) := by
  refine ⟨?_, fun g hg => Nat.lt_succ_of_lt (h.handle_lt g hg)⟩
  have hforest := h.forest.create (F := { status := .suspended, body := body, continuation := none
                                          state := if detached then .detach else .normal })
    rfl (.inl rfl)
  rwa [zero_add, ← Multiset.singleton_add] at hforest

/-- `exec_task` starts on a leaf that nobody else holds. -/
theorem Stacks.exec (h : Stacks {f} s) (w : Fin n) (inlineOf : Option (Fin n)) :
    Stacks 0 (execTask s w f inlineOf) := by
  have hforest := h.forest
  rw [Multiset.singleton_add] at hforest
  refine ⟨?_, ?_⟩
  · rw [zero_add, leaves_exec]
    exact hforest.touch rfl (.inr rfl)
  · rw [handles_exec]
    intro g hg
    rcases Multiset.mem_cons.mp hg with rfl | hg
    · obtain ⟨fs, hfs⟩ := hforest.exists_stack (Multiset.mem_cons_self ..)
      exact (hfs.unfinished g (List.mem_cons_self ..)).1
    · exact h.handle_lt g hg

/-- `submit_task` hands a leaf to the queue or to a call, or drops it. -/
theorem Stacks.submit (h : Stacks {f} s) (cfg : Config) (target : Fin n)
    (caller : Option (Fin n)) : Stacks 0 (submitTask cfg s target f caller) := by
  have hforest := h.forest
  rw [Multiset.singleton_add] at hforest
  rcases submitTask_cases cfg s target f caller with heq | heq | ⟨w, -, heq⟩
  · rw [heq]
    refine ⟨?_, h.handle_lt⟩
    rw [zero_add, leaves_push]
    exact hforest
  · rw [heq]
    refine ⟨?_, h.handle_lt⟩
    rw [zero_add]
    exact hforest.drop
  · rw [heq]
    have hdeeper : Stacks {f} { s with
        recursiveDepth := Function.update s.recursiveDepth target
          (s.recursiveDepth target + 1) } := ⟨h.forest, h.handle_lt⟩
    exact hdeeper.exec w _

theorem Stacks.take_waiting (h : Stacks 0 s) (hmem : f ∈ s.waiting) :
    Stacks {f} { s with waiting := s.waiting.erase f } := by
  refine ⟨?_, h.handle_lt⟩
  rw [Multiset.singleton_add, ← leaves_take_waiting hmem, ← zero_add (leaves s)]
  exact h.forest

theorem Stacks.take_queue (h : Stacks 0 s) (hmem : f ∈ s.taskQueue w) : Stacks {f} { s with
    taskQueue := Function.update s.taskQueue w ((s.taskQueue w).erase f) } := by
  refine ⟨?_, h.handle_lt⟩
  rw [Multiset.singleton_add, ← leaves_take_queue hmem, ← zero_add (leaves s)]
  exact h.forest

/-- The running frame takes its next step. -/
theorem Stacks.run (h : Stacks 0 s) (hcalls : s.calls w = c :: rest) (hf : c.cur = some f) :
    Stacks 0 (runFrame s w c rest f) := by
  have hforest := h.forest
  rw [zero_add, leaves_run hcalls hf] at hforest
  have hlt : ∀ (u : State n) (p : Point), u.calls = s.calls → s.size ≤ u.size →
      ∀ g ∈ handles (u.setCalls w ({ c with point := p } :: rest)),
        g < (u.setCalls w ({ c with point := p } :: rest)).size := by
    intro u p hu hsize g hg
    rw [handles_move (s := u) (hu ▸ hcalls)] at hg
    refine Nat.lt_of_lt_of_le (h.handle_lt g ?_) hsize
    rwa [handles, hu] at hg
  unfold runFrame
  cases hbody : (s.frames f).body with
  | suspend k =>
    refine ⟨?_, hlt _ _ rfl (Nat.le_refl _)⟩
    rw [zero_add, leaves_idle rfl]
    show Forest _ _ (leaves { s.setCalls w rest with waiting := f :: s.waiting })
    rw [leaves_waiting]
    exact hforest.touch rfl (.inl rfl)
  | await child k =>
    refine ⟨?_, hlt _ _ rfl (Nat.le_succ _)⟩
    rw [zero_add, leaves_frame rfl]
    have htouch := hforest.touch (f := f)
      (F := { s.frames f with status := .suspended, body := k }) rfl (.inl rfl)
    exact htouch.child rfl (.inr rfl)
  | ret =>
    cases hparent : (s.frames f).continuation with
    | none =>
      refine ⟨?_, hlt _ _ rfl (Nat.le_refl _)⟩
      rw [zero_add, leaves_idle rfl]
      exact hforest.finish
    | some parent =>
      refine ⟨?_, hlt _ _ rfl (Nat.le_refl _)⟩
      rw [zero_add, leaves_frame rfl]
      have hret := hforest.ret (F := { s.frames f with status := .destroyed }) hparent
      exact hret.touch rfl (.inr rfl)

/-- The call inspects its handle and returns. -/
theorem Stacks.check (h : Stacks 0 s) (hcalls : s.calls w = c :: rest)
    (hpoint : c.point = .returned) : Stacks 0 (checkHandle s w c rest) := by
  have hforest := h.forest
  have hidle : c.cur = none := by
    unfold Call.cur
    rw [hpoint]
  have hleaves : leaves s = leaves (s.setCalls w rest) := by
    rw [← leaves_idle hidle, setCalls_self hcalls]
  rw [zero_add, hleaves] at hforest
  have hlt : ∀ g ∈ handles (s.setCalls w rest), g < s.size := by
    intro g hg
    apply h.handle_lt
    rw [handles_eq hcalls]
    exact Multiset.mem_cons_of_mem hg
  by_cases hclean : (s.frames c.handle).isDone = true ∧ (s.frames c.handle).state = .detach
  · simp only [checkHandle, if_pos hclean]
    refine ⟨?_, hlt⟩
    rw [zero_add]
    exact hforest.retire (Frame.not_unfinished hclean.1)
  · simp only [checkHandle, if_neg hclean]
    refine ⟨?_, hlt⟩
    rw [zero_add]
    exact hforest

theorem Stacks.step (h : Stacks 0 s) (hstep : step cfg s a = some s') : Stacks 0 s' := by
  cases a with
  | spawn target body detached caller =>
    obtain ⟨-, ⟨⟩⟩ := Option.ite_none_right_eq_some.mp hstep
    exact (h.create body detached).submit cfg target caller
  | wake target handle caller =>
    obtain ⟨⟨hmem, -⟩, ⟨⟩⟩ := Option.ite_none_right_eq_some.mp hstep
    exact (h.take_waiting hmem).submit cfg target caller
  | execOne w handle =>
    obtain ⟨⟨hmem, -⟩, ⟨⟩⟩ := Option.ite_none_right_eq_some.mp hstep
    exact (h.take_queue hmem).exec w none
  | run w =>
    obtain ⟨c, rest, f, hcalls, hf, rfl⟩ := step_run hstep
    exact h.run hcalls hf
  | leave w =>
    obtain ⟨c, rest, hcalls, hpoint, rfl⟩ := step_leave hstep
    have hidle : c.cur = none := by
      unfold Call.cur
      rw [hpoint]
    refine ⟨?_, ?_⟩
    · rw [leaves_idle rfl, ← leaves_idle hidle, setCalls_self hcalls]
      exact h.forest
    · rw [handles_move hcalls]
      exact h.handle_lt
  | check w =>
    obtain ⟨c, rest, hcalls, hpoint, rfl⟩ := step_check hstep
    exact h.check hcalls hpoint

theorem Init.stacks (h : Init s) : Stacks 0 s := by
  refine ⟨?_, ?_⟩
  · simp only [leaves, h.taskQueue, h.waiting, h.calls, List.filterMap_nil, Multiset.coe_nil,
      Finset.sum_const_zero, add_zero]
    exact Forest.zero
  · simp [handles, h.calls]

theorem stacks_of_reachable (h : (machine n cfg).Reachable s) : Stacks 0 s := by
  refine h.invariant (I := Stacks 0) (fun _ h0 => Init.stacks h0) ?_
  intro s a s' _ hs hstep
  have hstep : step cfg s a = some s' := hstep
  exact Stacks.step hs hstep

end Stacks

end SheepCoro.Engine
