import SheepCoro.Engine.Frames

/-!
# Who destroys a detached task

`clean(handle)` destroys a frame whose promise is marked `detach`, and it is
only called for the handle that `exec_task` was given.  A detached root that
reaches its final suspend point in a call of its own, the only one in
progress that was given its handle, is destroyed at the end of that call,
exactly once (`detached_reclaimed`).  A detached root that finishes in a call
that was given the handle of a nested task is nobody's
(`nested_finish_leaks`), and one that two calls were given is destroyed
twice.

`Ledger` keeps the account of every frame: what its status and its mark say
about how often the engine has destroyed it.
-/

namespace SheepCoro.Engine

open Lib

variable {n : Nat} {s s' u : State n} {cfg : Config} {w : Fin n} {c : Call n}
  {rest : List (Call n)} {f g : Nat}

/-- The innermost call of a worker has returned from `resume()` and is about
to inspect `f`. -/
def Inspects (s : State n) (f : Nat) : Prop :=
  ∃ w c rest, s.calls w = c :: rest ∧ c.handle = f ∧ c.point = .returned

/-- How often the engine has destroyed a frame. -/
structure Accounted (s : State n) (f : Nat) : Prop where
  /-- Nobody detaches a task that is awaited. -/
  root : (s.frames f).state = .detach → (s.frames f).continuation = none
  normal : (s.frames f).state ≠ .detach → s.destroys f = 0
  unfinished : (s.frames f).Unfinished → s.destroys f = 0
  done : (s.frames f).state = .detach → (s.frames f).status = .done →
    s.destroys f = 0 ∧ Inspects s f ∧ (handles s).count f ≤ 1
  destroyed : (s.frames f).state = .detach → (s.frames f).status = .destroyed →
    s.destroys f = 1 ∧ f ∉ handles s

structure Ledger (s : State n) : Prop where
  fresh : ∀ f, s.size ≤ f → s.destroys f = 0
  accounted : ∀ f < s.size, Accounted s f

/-- A frame that has not finished has never been destroyed. -/
theorem Accounted.new (hzero : s.destroys f = 0) (hun : (s.frames f).Unfinished)
    (hroot : (s.frames f).state = .detach → (s.frames f).continuation = none) :
    Accounted s f := by
  refine ⟨hroot, fun _ => hzero, fun _ => hzero, fun _ hdone => ?_, fun _ hdone => ?_⟩
  · rcases hun with hst | hst <;> simp [hst] at hdone
  · rcases hun with hst | hst <;> simp [hst] at hdone

/-- A step that does not change the frame keeps its account. -/
theorem Accounted.keep (h : Accounted s f) (hframe : s'.frames f = s.frames f)
    (hdestroys : s'.destroys f = s.destroys f)
    (hcount : (handles s').count f = (handles s).count f)
    (hinspects : Inspects s f → Inspects s' f) : Accounted s' f := by
  refine ⟨?_, ?_, ?_, ?_, ?_⟩
  · rw [hframe]
    exact h.root
  · rw [hframe, hdestroys]
    exact h.normal
  · rw [hframe, hdestroys]
    exact h.unfinished
  · rw [hframe, hdestroys, hcount]
    intro hd hdone
    obtain ⟨hzero, hi, hone⟩ := h.done hd hdone
    exact ⟨hzero, hinspects hi, hone⟩
  · rw [hframe, hdestroys, ← Multiset.count_eq_zero, hcount, Multiset.count_eq_zero]
    exact h.destroyed

/-- A step that leaves the frame unfinished keeps its account. -/
theorem Accounted.touch (h : Accounted s f) (hbefore : (s.frames f).Unfinished)
    (hafter : (s'.frames f).Unfinished) (hstate : (s'.frames f).state = (s.frames f).state)
    (hcont : (s'.frames f).continuation = (s.frames f).continuation)
    (hdestroys : s'.destroys f = s.destroys f) : Accounted s' f := by
  refine .new (hdestroys.trans (h.unfinished hbefore)) hafter ?_
  rw [hstate, hcont]
  exact h.root

/-- The worker `w` is not about to inspect a handle. -/
def Runs (s : State n) (w : Fin n) : Prop :=
  ∀ c ∈ (s.calls w).head?, c.point ≠ .returned

/-- What another worker is about to inspect, it still is. -/
theorem Inspects.setCalls {calls : List (Call n)} (hi : Inspects s f) (hw : Runs s w)
    (hu : u.calls = s.calls) : Inspects (u.setCalls w calls) f := by
  obtain ⟨v, c, rest, hcalls, hhandle, hpoint⟩ := hi
  have hv : v ≠ w := by
    rintro rfl
    exact hw c (by simp [hcalls]) hpoint
  refine ⟨v, c, rest, ?_, hhandle, hpoint⟩
  rw [← hcalls, ← hu]
  exact Function.update_of_ne hv ..

theorem runs_of_canSubmit (h : s.canSubmit (some w) = true) : Runs s w := by
  intro c hc
  simp only [State.canSubmit] at h
  cases hcalls : s.calls w with
  | nil => simp [hcalls] at hc
  | cons d rest =>
    simp only [hcalls, List.head?_cons, Option.mem_def, Option.some.injEq] at h hc
    subst hc
    exact of_decide_eq_true h

/-! ## Submissions -/

theorem Ledger.create (h : Ledger s) (body : Body) (detached : Bool) :
    Ledger (s.create body detached) := by
  refine ⟨fun g hg => h.fresh g (Nat.le_of_succ_le hg), fun g hg => ?_⟩
  rcases Nat.lt_succ_iff_lt_or_eq.mp hg with hlt | heq
  · exact (h.accounted g hlt).keep (Function.update_of_ne (Nat.ne_of_lt hlt) ..) rfl rfl id
  · subst heq
    refine .new (h.fresh _ (Nat.le_refl _)) ?_ ?_
    · simp only [State.create, Function.update_self]
      exact .inl rfl
    · intro _
      simp only [State.create, Function.update_self]

/-- `exec_task` starts on a frame that has not finished. -/
theorem Ledger.exec (h : Ledger s) (hun : (s.frames f).Unfinished) (hw : Runs s w)
    (inlineOf : Option (Fin n)) : Ledger (execTask s w f inlineOf) := by
  refine ⟨h.fresh, fun g hg => ?_⟩
  by_cases hgf : g = f
  · subst hgf
    refine (h.accounted g hg).touch hun ?_ ?_ ?_ rfl
    · simp only [execTask, State.setStatus, State.setCalls, Function.update_self]
      exact .inr rfl
    · simp [execTask, State.setStatus, State.setCalls]
    · simp [execTask, State.setStatus, State.setCalls]
  · refine (h.accounted g hg).keep (Function.update_of_ne hgf ..) rfl ?_ fun hi =>
      hi.setCalls hw rfl
    rw [handles_exec, Multiset.count_cons_of_ne hgf]

theorem Ledger.submit (h : Ledger s) (hun : (s.frames f).Unfinished) (target : Fin n)
    {caller : Option (Fin n)} (hcan : s.canSubmit caller = true) :
    Ledger (submitTask cfg s target f caller) := by
  rcases submitTask_cases cfg s target f caller with heq | heq | ⟨w, rfl, heq⟩
  · rw [heq]
    exact ⟨h.fresh, fun g hg => (h.accounted g hg).keep rfl rfl rfl id⟩
  · rw [heq]
    exact h
  · rw [heq]
    have hdeeper : Ledger { s with
        recursiveDepth := Function.update s.recursiveDepth target
          (s.recursiveDepth target + 1) } :=
      ⟨h.fresh, fun g hg => (h.accounted g hg).keep rfl rfl rfl id⟩
    exact hdeeper.exec hun (runs_of_canSubmit hcan) _

/-! ## The running frame -/

section Run

variable (h : Ledger s) (hcalls : s.calls w = c :: rest) (hf : c.cur = some f)

include hcalls hf

theorem runs_of_cur : Runs s w := by
  intro d hd hpoint
  rw [hcalls] at hd
  cases hd
  rw [Call.cur_eq_some, hpoint] at hf
  cases hf

include h

/-- A frame that the step of `w` does not change. -/
theorem Ledger.others {p : Point} (hu : u.calls = s.calls) (hg : g < s.size)
    (hframe : u.frames g = s.frames g) (hdestroys : u.destroys = s.destroys) :
    Accounted (u.setCalls w ({ c with point := p } :: rest)) g := by
  refine (h.accounted g hg).keep hframe (congrFun hdestroys g) ?_ fun hi =>
    hi.setCalls (runs_of_cur hcalls hf) hu
  rw [handles_move (hu ▸ hcalls), handles, hu]
  rfl

/-- The running frame takes its next step.  A detached root does not finish in
a call that was given another handle, or while two calls were given its
handle. -/
theorem Ledger.run (hun : (s.frames f).Unfinished)
    (hpar : ∀ parent, (s.frames f).continuation = some parent →
      parent ≠ f ∧ (s.frames parent).Unfinished)
    (hself : (s.frames f).body = .ret → (s.frames f).state = .detach →
      c.handle = f ∧ (handles s).count f ≤ 1) : Ledger (runFrame s w c rest f) := by
  unfold runFrame
  cases hbody : (s.frames f).body with
  | suspend k =>
    refine ⟨h.fresh, fun g hg => ?_⟩
    by_cases hgf : g = f
    · subst hgf
      refine (h.accounted g hg).touch hun ?_ ?_ ?_ rfl
      all_goals simp [State.setCalls, Frame.Unfinished]
    · exact h.others hcalls hf rfl hg (Function.update_of_ne hgf ..) rfl
  | await child k =>
    refine ⟨fun g hg => h.fresh g (Nat.le_of_succ_le hg), fun g hg => ?_⟩
    rcases Nat.lt_succ_iff_lt_or_eq.mp hg with hlt | heq
    · have hne : g ≠ s.size := Nat.ne_of_lt hlt
      by_cases hgf : g = f
      · subst hgf
        refine (h.accounted g hlt).touch hun ?_ ?_ ?_ rfl
        all_goals simp [State.setCalls, Frame.Unfinished, Function.update_of_ne hne]
      · exact h.others hcalls hf rfl hlt
          ((Function.update_of_ne hne ..).trans (Function.update_of_ne hgf ..)) rfl
    · subst heq
      refine .new (h.fresh _ (Nat.le_refl _)) ?_ ?_
      · simp only [State.setCalls, Function.update_self]
        exact .inr rfl
      · simp [State.setCalls]
  | ret =>
    cases hparent : (s.frames f).continuation with
    | none =>
      refine ⟨h.fresh, fun g hg => ?_⟩
      by_cases hgf : g = f
      · subst hgf
        have hzero := (h.accounted g hg).unfinished hun
        refine ⟨?_, fun _ => hzero, fun _ => hzero, fun hd _ => ⟨hzero, ?_⟩, fun _ hst => ?_⟩
        · simp [State.setStatus, State.setCalls, hparent]
        · have hd' : (s.frames g).state = .detach := by
            simpa [State.setStatus, State.setCalls] using hd
          obtain ⟨hhandle, hone⟩ := hself hbody hd'
          refine ⟨⟨w, _, rest, Function.update_self .., hhandle, rfl⟩, ?_⟩
          rwa [handles_move (s := s.setStatus g .done) hcalls]
        · simp [State.setStatus, State.setCalls] at hst
      · exact h.others (u := s.setStatus f .done) hcalls hf rfl hg
          (Function.update_of_ne hgf ..) rfl
    | some parent =>
      obtain ⟨hne, hunpar⟩ := hpar parent hparent
      refine ⟨h.fresh, fun g hg => ?_⟩
      by_cases hgf : g = f
      · subst hgf
        have hzero := (h.accounted g hg).unfinished hun
        -- A nested task is not detached, so the engine owes it nothing.
        have hnormal : (s.frames g).state ≠ .detach := by
          intro hd
          have hroot := (h.accounted g hg).root hd
          rw [hparent] at hroot
          cases hroot
        refine ⟨fun hd => ?_, fun _ => hzero, fun _ => hzero, fun hd => ?_, fun hd => ?_⟩
        all_goals
          simp only [State.setStatus, State.setCalls, Function.update_of_ne hne.symm,
            Function.update_self] at hd
          exact absurd hd hnormal
      · by_cases hgp : g = parent
        · subst hgp
          refine (h.accounted g hg).touch hunpar ?_ ?_ ?_ rfl
          all_goals simp [State.setStatus, State.setCalls, Frame.Unfinished,
            Function.update_of_ne hgf]
        · exact h.others (u := (s.setStatus f .destroyed).setStatus parent .running) hcalls hf rfl
            hg ((Function.update_of_ne hgp ..).trans (Function.update_of_ne hgf ..)) rfl

end Run

/-! ## The end of a call -/

theorem Ledger.check (h : Ledger s) (hst : Stacks 0 s) (hcalls : s.calls w = c :: rest) :
    Ledger (checkHandle s w c rest) := by
  have hhandles := handles_eq hcalls
  have hmem : c.handle ∈ handles s := by
    rw [hhandles]
    exact Multiset.mem_cons_self ..
  have hlt := hst.handle_lt _ hmem
  -- What the call does not inspect is what it was.
  have hother : ∀ t : State n, t.calls = Function.update s.calls w rest → ∀ g < s.size,
      g ≠ c.handle → t.frames g = s.frames g → t.destroys g = s.destroys g → Accounted t g := by
    intro t ht g hg hgh hframe hdestroys
    refine (h.accounted g hg).keep hframe hdestroys ?_ ?_
    · rw [hhandles, Multiset.count_cons_of_ne hgh, handles, ht]
      rfl
    · rintro ⟨v, d, ds, hd, rfl, hpoint⟩
      have hv : v ≠ w := by
        rintro rfl
        rw [hcalls] at hd
        cases hd
        exact hgh rfl
      refine ⟨v, d, ds, ?_, rfl, hpoint⟩
      rw [ht, Function.update_of_ne hv]
      exact hd
  have hacc := h.accounted _ hlt
  by_cases hclean : (s.frames c.handle).isDone = true ∧ (s.frames c.handle).state = .detach
  · simp only [checkHandle, if_pos hclean]
    have hdone : (s.frames c.handle).status = .done := by
      have hlive : (s.frames c.handle).status ≠ .destroyed := fun hst =>
        (hacc.destroyed hclean.2 hst).2 hmem
      simpa [Frame.isDone, hlive] using hclean.1
    obtain ⟨hzero, -, hone⟩ := hacc.done hclean.2 hdone
    have hlast : c.handle ∉ handles (s.setCalls w rest) := by
      rw [hhandles, Multiset.count_cons_self] at hone
      exact Multiset.count_eq_zero.mp (Nat.le_zero.mp (Nat.le_of_succ_le_succ hone))
    refine ⟨fun g hg => ?_, fun g hg => ?_⟩
    · have hne : g ≠ c.handle := fun heq => Nat.not_lt.mpr hg (heq ▸ hlt)
      simpa only [Function.update_of_ne hne] using h.fresh g hg
    · by_cases hgh : g = c.handle
      · subst hgh
        refine ⟨?_, ?_, ?_, ?_, ?_⟩
        · simpa [State.setStatus] using hacc.root
        · simp [State.setStatus, hclean.2]
        · simp [State.setStatus, Frame.Unfinished]
        · simp [State.setStatus]
        · exact fun _ _ => ⟨by simp [hzero], hlast⟩
      · exact hother _ rfl g hg hgh (Function.update_of_ne hgh ..) (Function.update_of_ne hgh ..)
  · simp only [checkHandle, if_neg hclean]
    refine ⟨h.fresh, fun g hg => ?_⟩
    by_cases hgh : g = c.handle
    · subst hgh
      refine ⟨hacc.root, hacc.normal, hacc.unfinished, fun hd hdone => ?_, fun hd hst => ?_⟩
      · have hst : (s.frames c.handle).status = .done := hdone
        exact absurd ⟨by simp [Frame.isDone, hst], hd⟩ hclean
      · exact absurd hmem (hacc.destroyed hd hst).2
    · exact hother _ rfl g hg hgh rfl rfl

/-! ## Every run -/

/-- A detached root reaches its final suspend point only in the `exec_task`
call that was given its own handle, and while no other call was. -/
def RootFinishesItself (s : State n) : Label n → Prop
  | .run w => ∀ call ∈ (s.calls w).head?, ∀ f ∈ call.cur, (s.frames f).body = .ret →
      (s.frames f).state = .detach → call.handle = f ∧ (handles s).count f ≤ 1
  | _ => True

instance (s : State n) : DecidablePred (RootFinishesItself s)
  | .run w => inferInstanceAs (Decidable (∀ call ∈ (s.calls w).head?, ∀ f ∈ call.cur,
      (s.frames f).body = .ret → (s.frames f).state = .detach →
        call.handle = f ∧ (handles s).count f ≤ 1))
  | .spawn .. | .wake .. | .execOne .. | .leave .. | .check .. => inferInstanceAs (Decidable True)

/-- The frame that a leaf finishes into has not finished. -/
theorem Stacks.parent_unfinished {extra : Multiset Nat} (h : Stacks extra s) (hf : f ∈ leaves s)
    {parent : Nat} (hparent : (s.frames f).continuation = some parent) :
    parent ≠ f ∧ (s.frames parent).Unfinished := by
  obtain ⟨fs, hfs⟩ := h.forest.exists_stack (Multiset.mem_add.mpr (.inr hf))
  have htail := hfs.chain.2
  rw [continuations, hparent] at htail
  obtain ⟨gs, rfl, _⟩ := Chain.some_iff.mp htail
  have hnodup := (List.nodup_cons.mp hfs.chain.nodup).1
  refine ⟨fun heq => hnodup (heq ▸ List.mem_cons_self ..), ?_⟩
  exact (hfs.unfinished parent (by simp)).2

theorem Ledger.step {a : Label n} (h : Ledger s) (hst : Stacks 0 s)
    (hguard : RootFinishesItself s a) (hstep : step cfg s a = some s') : Ledger s' := by
  cases a with
  | spawn target body detached caller =>
    obtain ⟨hcan, ⟨⟩⟩ := Option.ite_none_right_eq_some.mp hstep
    refine (h.create body detached).submit ?_ target hcan
    simp only [State.create, Function.update_self]
    exact .inl rfl
  | wake target handle caller =>
    obtain ⟨⟨hmem, hcan⟩, ⟨⟩⟩ := Option.ite_none_right_eq_some.mp hstep
    have hleaf : handle ∈ leaves s := by
      rw [leaves_take_waiting hmem]
      exact Multiset.mem_cons_self ..
    have htaken : Ledger { s with waiting := s.waiting.erase handle } :=
      ⟨h.fresh, fun g hg => (h.accounted g hg).keep rfl rfl rfl id⟩
    exact htaken.submit (hst.leaf_unfinished hleaf).2 target hcan
  | execOne w handle =>
    obtain ⟨⟨hmem, hcalls⟩, ⟨⟩⟩ := Option.ite_none_right_eq_some.mp hstep
    have hleaf : handle ∈ leaves s := by
      rw [leaves_take_queue hmem]
      exact Multiset.mem_cons_self ..
    have htaken : Ledger { s with
        taskQueue := Function.update s.taskQueue w ((s.taskQueue w).erase handle) } :=
      ⟨h.fresh, fun g hg => (h.accounted g hg).keep rfl rfl rfl id⟩
    exact htaken.exec (hst.leaf_unfinished hleaf).2 (by simp [Runs, hcalls]) none
  | run w =>
    obtain ⟨c, rest, f, hcalls, hf, rfl⟩ := step_run hstep
    have hleaf := mem_leaves_of_cur (s := s) (w := w) (c := c) (by simp [hcalls]) hf
    exact h.run hcalls hf (hst.leaf_unfinished hleaf).2
      (fun _ hparent => hst.parent_unfinished hleaf hparent) (hguard c (by simp [hcalls]) f hf)
  | leave w =>
    obtain ⟨c, rest, hcalls, hpoint, rfl⟩ := step_leave hstep
    refine ⟨h.fresh, fun g hg => (h.accounted g hg).keep rfl rfl ?_ fun hi => hi.setCalls ?_ rfl⟩
    · rw [handles_move hcalls]
    · intro d hd
      rw [hcalls] at hd
      cases hd
      rw [hpoint]
      simp
  | check w =>
    obtain ⟨c, rest, hcalls, _, rfl⟩ := step_check hstep
    exact h.check hst hcalls

theorem ledger_of_reachable (h : (machine n cfg).ReachableUnder RootFinishesItself s) :
    Ledger s := by
  refine h.invariant (I := Ledger) (fun s h0 => ?_) ?_
  · have h0 : Init s := h0
    refine ⟨fun f _ => h0.destroys f, fun f hf => ?_⟩
    rw [h0.size] at hf
    omega
  · intro s a s' hr hs hguard hstep
    have hstep : step cfg s a = some s' := hstep
    exact Ledger.step hs (stacks_of_reachable hr.reachable) hguard hstep

/-- In every run in which detached roots finish in their own calls, a
detached task that has finished has been destroyed exactly once, or the next
step of a worker destroys it; and the engine never destroys a task that is
not detached. -/
theorem detached_reclaimed (n : Nat) (cfg : Config) (s : State n)
    (h : (machine n cfg).ReachableUnder RootFinishesItself s) (f : Nat) (hf : f < s.size) :
    ((s.frames f).state = .detach → (s.frames f).isDone = true →
      s.destroys f = 1 ∨
        s.destroys f = 0 ∧ ∃ w s', step cfg s (.check w) = some s' ∧ s'.destroys f = 1) ∧
    ((s.frames f).state ≠ .detach → s.destroys f = 0) ∧ s.destroys f ≤ 1 := by
  have hacc := (ledger_of_reachable h).accounted f hf
  have hcases : (s.frames f).state = .detach → (s.frames f).isDone = true →
      s.destroys f = 1 ∨
        s.destroys f = 0 ∧ ∃ w s', step cfg s (.check w) = some s' ∧ s'.destroys f = 1 := by
    intro hd hdone
    by_cases hst : (s.frames f).status = .destroyed
    · exact .inl (hacc.destroyed hd hst).1
    · have hst' : (s.frames f).status = .done := by simpa [Frame.isDone, hst] using hdone
      obtain ⟨hzero, ⟨w, ⟨handle, _, inlineOf⟩, rest, hcalls, rfl, rfl⟩, -⟩ := hacc.done hd hst'
      refine .inr ⟨hzero, w, checkHandle s w ⟨handle, .returned, inlineOf⟩ rest, ?_, ?_⟩
      · simp only [step, hcalls]
      · simp only [checkHandle, if_pos (And.intro hdone hd)]
        simp [hzero]
  refine ⟨hcases, hacc.normal, ?_⟩
  by_cases hd : (s.frames f).state = .detach
  · by_cases hdone : (s.frames f).isDone = true
    · rcases hcases hd hdone with hone | ⟨hzero, _⟩ <;> omega
    · have hun : (s.frames f).Unfinished := by
        unfold Frame.Unfinished
        cases hst : (s.frames f).status <;> simp [Frame.isDone, hst] at hdone ⊢
      rw [hacc.unfinished hun]
      omega
  · rw [hacc.normal hd]
    omega

/-- A root that awaits a task, suspends on its own and then finishes. -/
theorem detached_reclaimed_root :
    ∃ s, (machine 1 ⟨1, 4⟩).ReachableUnder RootFinishesItself s ∧
      (0 < s.size ∧ (s.frames 0).state = .detach ∧ (s.frames 0).isDone = true ∧
        s.calls 0 = []) ∧ s.destroys 0 ≤ 1 := by
  have hrun : ((machine 1 ⟨1, 4⟩).runUnder RootFinishesItself (emptyState 1) rootRun).map
      (fun s => decide (0 < s.size ∧ (s.frames 0).state = .detach ∧
        (s.frames 0).isDone = true ∧ s.calls 0 = [])) = some true := by decide
  obtain ⟨s, hs, htest⟩ := Machine.reachableUnder_of_run init_emptyState hrun
  have htest := of_decide_eq_true htest
  exact ⟨s, hs, htest, (detached_reclaimed 1 _ s hs 0 htest.1).2.2⟩

/-- A detached root that finished behind its nested task: the engine is idle,
nobody refers to any frame any more, and the root was not destroyed. -/
theorem nested_finish_leaks :
    ∃ s, (machine 1 ⟨16, 4⟩).Reachable s ∧ leaves s = 0 ∧ s.calls 0 = [] ∧
      (s.frames 0).state = .detach ∧ (s.frames 0).status = .done ∧ s.destroys 0 = 0 := by
  have hrun : ((machine 1 ⟨16, 4⟩).run (emptyState 1) nestedRun).map
      (fun s => decide (leaves s = 0 ∧ s.calls 0 = [] ∧ (s.frames 0).state = .detach ∧
        (s.frames 0).status = .done ∧ s.destroys 0 = 0)) = some true := by decide
  obtain ⟨s, hs, htest⟩ := Machine.reachable_of_run init_emptyState hrun
  exact ⟨s, hs, of_decide_eq_true htest⟩

end SheepCoro.Engine
