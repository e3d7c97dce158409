import SheepCoro.Engine.Stacks

/-!
# Which frame `exec_task` looks at

`exec_task` resumes a handle and then inspects that same handle.  When the
handle belongs to a nested task that finishes, `final_awaitable` transfers
to the parent, the parent runs past its `co_await`, and the frame that
`exec_task` is about to inspect is gone (`nested_finish_is_stale`).  When the
queue is full, a coroutine that has just suspended may be resumed by a second
`exec_task` before the first one has come back; the inner call then destroys
the frame that the outer one inspects (`reentryRun`).

`Tracked` is the invariant behind `inspects_live_frames`.  The handle of a
call stays on the chain behind the frame that runs, and no call was given a
frame before it.
-/

namespace SheepCoro.Engine

open Lib

variable {n : Nat} {s u : State n} {w : Fin n} {c : Call n} {rest : List (Call n)} {f g : Nat}

/-! ## The handle of a call -/

/-- `h` is on the chain of continuations that starts at `f`, behind frames
that are not in `hs`. -/
def Behind (frames : Nat → Frame) (hs : Multiset Nat) (f h : Nat) : Prop :=
  ∃ before rest, Chain (continuations frames) (some f) (before ++ h :: rest) ∧
    ∀ x ∈ before, x ∉ hs

theorem Behind.congr {frames frames' : Nat → Frame} {hs hs' : Multiset Nat} {h : Nat}
    (hb : Behind frames hs f h)
    (hc : ∀ fs, Chain (continuations frames) (some f) fs → ∀ x ∈ fs,
      (frames' x).continuation = (frames x).continuation ∧ (x ∈ hs' → x ∈ hs)) :
    Behind frames' hs' f h := by
  obtain ⟨before, rest, hchain, hbefore⟩ := hb
  refine ⟨before, rest, hchain.congr fun x hx => (hc _ hchain x hx).1, fun x hx hmem => ?_⟩
  exact hbefore x hx ((hc _ hchain x (List.mem_append_left _ hx)).2 hmem)

/-- A store to a frame keeps every link when it keeps the one of that
frame. -/
theorem continuation_update {frames : Nat → Frame} {F : Frame}
    (hF : F.continuation = (frames f).continuation) (x : Nat) :
    (Function.update frames f F x).continuation = (frames x).continuation := by
  by_cases hx : x = f
  · subst hx
    rw [Function.update_self, hF]
  · rw [Function.update_of_ne hx]

/-- The calls that were given the handles `hs` find what they expect. -/
structure Inspectable (frames : Nat → Frame) (hs : Multiset Nat) : Prop where
  live : ∀ h ∈ hs, (frames h).status ≠ .destroyed
  /-- Only one call inspects a detached frame that is done. -/
  once : ∀ f, (frames f).status = .done → (frames f).state = .detach → hs.count f ≤ 1

theorem Inspectable.update {frames : Nat → Frame} {hs : Multiset Nat} {F : Frame}
    (h : Inspectable frames hs) (hlive : F.status = .destroyed → f ∉ hs)
    (honce : F.status = .done → F.state = .detach → hs.count f ≤ 1) :
    Inspectable (Function.update frames f F) hs := by
  refine ⟨fun g hg => ?_, fun g hdone hd => ?_⟩
  · by_cases hgf : g = f
    · subst hgf
      rw [Function.update_self]
      exact fun hdestroyed => hlive hdestroyed hg
    · rw [Function.update_of_ne hgf]
      exact h.live g hg
  · by_cases hgf : g = f
    · subst hgf
      rw [Function.update_self] at hdone hd
      exact honce hdone hd
    · rw [Function.update_of_ne hgf] at hdone hd
      exact h.once g hdone hd

theorem Inspectable.cons {frames : Nat → Frame} {hs : Multiset Nat} (h : Inspectable frames hs)
    (hun : (frames f).Unfinished) : Inspectable frames (f ::ₘ hs) := by
  refine ⟨fun g hg => ?_, fun g hdone hd => ?_⟩
  · rcases Multiset.mem_cons.mp hg with rfl | hg
    · rcases hun with hst | hst <;> simp [hst]
    · exact h.live g hg
  · have hgf : g ≠ f := by
      rintro rfl
      rcases hun with hst | hst <;> simp [hst] at hdone
    rw [Multiset.count_cons_of_ne hgf]
    exact h.once g hdone hd

theorem Inspectable.tail {frames : Nat → Frame} {hs : Multiset Nat}
    (h : Inspectable frames (f ::ₘ hs)) : Inspectable frames hs where
  live g hg := h.live g (Multiset.mem_cons_of_mem hg)
  once g hdone hd := (Multiset.count_le_count_cons ..).trans (h.once g hdone hd)

/-- Where the handles of the calls in progress are. -/
structure Tracked (s : State n) : Prop where
  behind : ∀ w, ∀ c ∈ s.calls w, ∀ f, c.cur = some f → Behind s.frames (handles s) f c.handle
  inspectable : Inspectable s.frames (handles s)

section Tracked

variable {s' : State n} {cfg : Config} {a : Label n}

theorem Tracked.create (h : Tracked s) (hst : Stacks 0 s) (body : Body) (detached : Bool) :
    Tracked (s.create body detached) := by
  refine ⟨fun w c hc f hf => (h.behind w c hc f hf).congr fun fs hfs x hx => ?_,
    h.inspectable.update (fun hnot => ?_) (fun hnot => ?_)⟩
  · have hleaf : f ∈ 0 + leaves s := Multiset.mem_add.mpr (.inr (mem_leaves_of_cur hc hf))
    have hne := Nat.ne_of_lt (hst.forest.chain_unfinished hleaf hfs hx).1
    exact ⟨congrArg Frame.continuation (Function.update_of_ne hne ..), id⟩
  · cases hnot
  · cases hnot

/-- `exec_task` starts on a leaf that nobody else holds, so no frame that runs
has it behind. -/
theorem Tracked.exec (h : Tracked s) (hst : Stacks {f} s) (w : Fin n)
    (inlineOf : Option (Fin n)) : Tracked (execTask s w f inlineOf) := by
  have hlinks : ∀ x, ((execTask s w f inlineOf).frames x).continuation =
      (s.frames x).continuation := continuation_update (by rfl)
  have hforest := hst.forest
  rw [Multiset.singleton_add] at hforest
  obtain ⟨fs, hfs⟩ := hforest.exists_stack (Multiset.mem_cons_self ..)
  have hold : ∀ v, ∀ d ∈ s.calls v, ∀ g, d.cur = some g →
      Behind (execTask s w f inlineOf).frames (f ::ₘ handles s) g d.handle := by
    intro v d hd g hg
    refine (h.behind v d hd g hg).congr fun gs hgs x hx => ⟨hlinks x, fun hmem => ?_⟩
    rcases Multiset.mem_cons.mp hmem with rfl | hmem
    · obtain ⟨ls, hls⟩ := Multiset.exists_cons_of_mem (mem_leaves_of_cur hd hg)
      rw [hls, Multiset.cons_swap] at hforest
      exact absurd hx (hforest.not_mem_chain hgs (Multiset.mem_cons_self ..))
    · exact hmem
  have hhandles : handles (execTask s w f inlineOf) = f ::ₘ handles s := handles_exec
  rw [← hhandles] at hold
  refine ⟨forall_setCalls hold (List.forall_mem_cons.mpr ⟨?_, hold w⟩), ?_⟩
  · rintro g ⟨⟩
    exact ⟨[], fs, hfs.chain.congr fun x _ => hlinks x, by simp⟩
  · rw [handles_exec]
    have hrunning := h.inspectable.update (f := f)
      (F := { s.frames f with status := .running }) (fun hnot => by cases hnot)
      (fun hnot => by cases hnot)
    refine hrunning.cons ?_
    rw [Function.update_self]
    exact .inr rfl

theorem Tracked.submit (h : Tracked s) (hst : Stacks {f} s) (cfg : Config) (target : Fin n)
    (caller : Option (Fin n)) : Tracked (submitTask cfg s target f caller) := by
  rcases submitTask_cases cfg s target f caller with heq | heq | ⟨w, -, heq⟩
  · rw [heq]
    exact ⟨h.behind, h.inspectable⟩
  · rw [heq]
    exact h
  · rw [heq]
    have hdeeper : Tracked { s with
        recursiveDepth := Function.update s.recursiveDepth target
          (s.recursiveDepth target + 1) } := ⟨h.behind, h.inspectable⟩
    exact hdeeper.exec ⟨hst.forest, hst.handle_lt⟩ w _

/-- The innermost call of `w` moves on.  The links of the old frames stay, so
the other calls keep what they had. -/
theorem Tracked.advance (h : Tracked s) (hst : Stacks 0 s) (hcalls : s.calls w = c :: rest)
    {p : Point} (hu : u.calls = s.calls)
    (hlinks : ∀ x < s.size, (u.frames x).continuation = (s.frames x).continuation)
    (hbehind : ∀ g, p = .frame g → Behind u.frames (handles s) g c.handle)
    (hinspectable : Inspectable u.frames (handles s)) :
    Tracked (u.setCalls w ({ c with point := p } :: rest)) := by
  have hhandles : handles (u.setCalls w ({ c with point := p } :: rest)) = handles s := by
    rw [handles_move (hu ▸ hcalls), handles, hu]
    rfl
  have hold : ∀ v, ∀ d ∈ s.calls v, ∀ g, d.cur = some g →
      Behind u.frames (handles s) g d.handle := by
    intro v d hd g hg
    refine (h.behind v d hd g hg).congr fun gs hgs x hx => ⟨hlinks x ?_, id⟩
    have hleaf : g ∈ 0 + leaves s := Multiset.mem_add.mpr (.inr (mem_leaves_of_cur hd hg))
    exact (hst.forest.chain_unfinished hleaf hgs hx).1
  refine ⟨?_, by rw [hhandles]; exact hinspectable⟩
  rw [hhandles]
  refine forall_setCalls (hu ▸ hold) (List.forall_mem_cons.mpr ⟨fun g hg => ?_, fun d hd => ?_⟩)
  · exact hbehind g (Call.cur_eq_some.mp hg)
  · refine hold w d ?_
    rw [hcalls]
    exact List.mem_cons_of_mem _ hd

/-- The running frame takes its next step.  A nested task does not finish in a
call that was given its handle, and a detached one does not finish while two
calls were given its handle. -/
theorem Tracked.run (h : Tracked s) (hst : Stacks 0 s) (hcalls : s.calls w = c :: rest)
    (hf : c.cur = some f)
    (hnested : (s.frames f).body = .ret → (s.frames f).continuation ≠ none → c.handle ≠ f)
    (honce : (s.frames f).body = .ret → (s.frames f).state = .detach →
      (handles s).count f ≤ 1) : Tracked (runFrame s w c rest f) := by
  have hmem : c ∈ s.calls w := by simp [hcalls]
  have hsuspend : ∀ k, Inspectable (Function.update s.frames f
      { s.frames f with status := .suspended, body := k }) (handles s) := fun k =>
    h.inspectable.update (fun hnot => by cases hnot) (fun hnot => by cases hnot)
  obtain ⟨before, after, hchain, hbefore⟩ := h.behind w c hmem f hf
  unfold runFrame
  cases hbody : (s.frames f).body with
  | suspend k =>
    refine h.advance hst hcalls rfl (fun x _ => continuation_update (by rfl) x) ?_ (hsuspend k)
    rintro g ⟨⟩
  | await child k =>
    have hlinks : ∀ x < s.size, (Function.update
        (Function.update s.frames f { s.frames f with status := .suspended, body := k }) s.size
        { status := .running, body := child, continuation := some f, state := .normal }
        x).continuation = (s.frames x).continuation := by
      intro x hx
      rw [Function.update_of_ne (Nat.ne_of_lt hx)]
      exact continuation_update (by rfl) x
    refine h.advance hst hcalls rfl hlinks ?_ ?_
    · rintro g ⟨⟩
      refine ⟨s.size :: before, after, ⟨rfl, ?_⟩, List.forall_mem_cons.mpr ⟨?_, hbefore⟩⟩
      · simp only [continuations, Function.update_self]
        refine hchain.congr fun x hx => hlinks x ?_
        have hleaf : f ∈ 0 + leaves s := Multiset.mem_add.mpr (.inr (mem_leaves_of_cur hmem hf))
        exact (hst.forest.chain_unfinished hleaf hchain hx).1
      · exact fun hsize => Nat.lt_irrefl _ (hst.handle_lt _ hsize)
    · exact (hsuspend k).update (fun hnot => by cases hnot) (fun hnot => by cases hnot)
  | ret =>
    cases hparent : (s.frames f).continuation with
    | none =>
      refine h.advance hst hcalls rfl (fun x _ => continuation_update (by rfl) x) ?_ ?_
      · rintro g ⟨⟩
      · exact h.inspectable.update (fun hnot => by cases hnot) fun _ hd => honce hbody hd
    | some parent =>
      have hne := hnested hbody (by simp [hparent])
      have hlinks : ∀ x, (((s.setStatus f .destroyed).setStatus parent .running).frames
          x).continuation = (s.frames x).continuation := by
        intro x
        have hfirst : ((s.setStatus f .destroyed).frames x).continuation =
            (s.frames x).continuation := continuation_update (by rfl) x
        exact (continuation_update (by rfl) x).trans hfirst
      -- The frame that finishes is before the handle, so no call was given it.
      obtain ⟨before, rfl⟩ : ∃ bs, before = f :: bs := by
        cases before with
        | nil => exact absurd (Option.some.inj hchain.1).symm hne
        | cons b bs => exact ⟨bs, by rw [Option.some.inj hchain.1]⟩
      obtain ⟨hfresh, hbefore⟩ := List.forall_mem_cons.mp hbefore
      have htail := hchain.2
      rw [continuations, hparent] at htail
      refine h.advance hst hcalls rfl (fun x _ => hlinks x) ?_ ?_
      · rintro g ⟨⟩
        exact ⟨before, after, htail.congr fun x _ => hlinks x, hbefore⟩
      · have hgone := h.inspectable.update (f := f)
          (F := { s.frames f with status := .destroyed }) (fun _ => hfresh)
          (fun hnot => by cases hnot)
        exact hgone.update (fun hnot => by cases hnot) (fun hnot => by cases hnot)

/-- The call inspects its handle and returns. -/
theorem Tracked.check (h : Tracked s) (hcalls : s.calls w = c :: rest) :
    Tracked (checkHandle s w c rest) := by
  have hhandles := handles_eq hcalls
  have hinspectable := h.inspectable
  rw [hhandles] at hinspectable
  have hrest : ∀ v, ∀ d ∈ (s.setCalls w rest).calls v, ∀ g, d.cur = some g →
      Behind s.frames (handles (s.setCalls w rest)) g d.handle := by
    have hold : ∀ v, ∀ d ∈ s.calls v, ∀ g, d.cur = some g →
        Behind s.frames (handles (s.setCalls w rest)) g d.handle := by
      intro v d hd g hg
      refine (h.behind v d hd g hg).congr fun _ _ x _ => ⟨rfl, fun hx => ?_⟩
      rw [hhandles]
      exact Multiset.mem_cons_of_mem hx
    refine forall_setCalls hold fun d hd => hold w d ?_
    rw [hcalls]
    exact List.mem_cons_of_mem _ hd
  by_cases hclean : (s.frames c.handle).isDone = true ∧ (s.frames c.handle).state = .detach
  · simp only [checkHandle, if_pos hclean]
    have hdone : (s.frames c.handle).status = .done := by
      have hlive := hinspectable.live _ (Multiset.mem_cons_self ..)
      simpa [Frame.isDone, hlive] using hclean.1
    have hlast : c.handle ∉ handles (s.setCalls w rest) := by
      have hone := hinspectable.once _ hdone hclean.2
      rw [Multiset.count_cons_self] at hone
      exact Multiset.count_eq_zero.mp (Nat.le_zero.mp (Nat.le_of_succ_le_succ hone))
    refine ⟨fun v d hd g hg => (hrest v d hd g hg).congr fun _ _ x _ =>
      ⟨continuation_update (by rfl) x, id⟩, ?_⟩
    exact hinspectable.tail.update (fun _ => hlast) (fun hnot => by cases hnot)
  · simp only [checkHandle, if_neg hclean]
    exact ⟨hrest, hinspectable.tail⟩

/-! ## Live frames only -/

/-- A nested task does not take its final step inside of the `exec_task` call
that was given its own handle, and a detached root does not take it while two
calls in progress were given its handle. -/
def FinishesWhereInspected (s : State n) : Label n → Prop
  | .run w => ∀ call ∈ (s.calls w).head?, ∀ f ∈ call.cur, (s.frames f).body = .ret →
      ((s.frames f).continuation ≠ none → call.handle ≠ f) ∧
        ((s.frames f).state = .detach → (handles s).count f ≤ 1)
  | _ => True

instance (s : State n) : DecidablePred (FinishesWhereInspected s)
  | .run w => inferInstanceAs (Decidable (∀ call ∈ (s.calls w).head?, ∀ f ∈ call.cur,
      (s.frames f).body = .ret → ((s.frames f).continuation ≠ none → call.handle ≠ f) ∧
        ((s.frames f).state = .detach → (handles s).count f ≤ 1)))
  | .spawn .. | .wake .. | .execOne .. | .leave .. | .check .. => inferInstanceAs (Decidable True)

theorem Tracked.step (h : Tracked s) (hst : Stacks 0 s) (hguard : FinishesWhereInspected s a)
    (hstep : step cfg s a = some s') : Tracked s' := by
  cases a with
  | spawn target body detached caller =>
    obtain ⟨-, ⟨⟩⟩ := Option.ite_none_right_eq_some.mp hstep
    exact (h.create hst body detached).submit (hst.create body detached) cfg target caller
  | wake target handle caller =>
    obtain ⟨⟨hmem, -⟩, ⟨⟩⟩ := Option.ite_none_right_eq_some.mp hstep
    have htaken : Tracked { s with waiting := s.waiting.erase handle } :=
      ⟨h.behind, h.inspectable⟩
    exact htaken.submit (hst.take_waiting hmem) cfg target caller
  | execOne w handle =>
    obtain ⟨⟨hmem, -⟩, ⟨⟩⟩ := Option.ite_none_right_eq_some.mp hstep
    have htaken : Tracked { s with
        taskQueue := Function.update s.taskQueue w ((s.taskQueue w).erase handle) } :=
      ⟨h.behind, h.inspectable⟩
    exact htaken.exec (hst.take_queue hmem) w none
  | run w =>
    obtain ⟨c, rest, f, hcalls, hf, rfl⟩ := step_run hstep
    have hfinish := hguard c (by simp [hcalls]) f hf
    exact h.run hst hcalls hf (fun hbody => (hfinish hbody).1) fun hbody => (hfinish hbody).2
  | leave w =>
    obtain ⟨c, rest, hcalls, hpoint, rfl⟩ := step_leave hstep
    refine h.advance hst hcalls rfl (fun _ _ => rfl) ?_ h.inspectable
    rintro g ⟨⟩
  | check w =>
    obtain ⟨c, rest, hcalls, hpoint, rfl⟩ := step_check hstep
    exact h.check hcalls

theorem Init.tracked (h : Init s) : Tracked s := by
  refine ⟨?_, ?_, ?_⟩
  · intro w c hc
    rw [h.calls] at hc
    cases hc
  · intro g hg
    obtain ⟨w, c, hc, -⟩ := mem_handles.mp hg
    rw [h.calls] at hc
    cases hc
  · intro f _ _
    simp [handles, h.calls]

theorem tracked_of_reachable
    (h : (machine n cfg).ReachableUnder FinishesWhereInspected s) : Tracked s := by
  refine h.invariant (I := Tracked) (fun _ h0 => Init.tracked h0) ?_
  intro s a s' hr hs hguard hstep
  have hstep : step cfg s a = some s' := hstep
  exact Tracked.step hs (stacks_of_reachable hr.reachable) hguard hstep

/-- Only `check` inspects handles. -/
theorem stale_step (hstep : step cfg s a = some s') :
    s'.stale = s.stale ∨ ∃ w c rest, s.calls w = c :: rest ∧
      s'.stale = if (s.frames c.handle).status = .destroyed then c.handle :: s.stale
        else s.stale := by
  have hsubmit : ∀ (u : State n) (target : Fin n) (handle : Nat) (caller : Option (Fin n)),
      (submitTask cfg u target handle caller).stale = u.stale := by
    intro u target handle caller
    rcases submitTask_cases cfg u target handle caller with heq | heq | ⟨w, -, heq⟩
    all_goals
      have hstale := congrArg State.stale heq
      exact hstale
  cases a with
  | spawn target body detached caller =>
    obtain ⟨_, ⟨⟩⟩ := Option.ite_none_right_eq_some.mp hstep
    exact .inl (hsubmit ..)
  | wake target handle caller =>
    obtain ⟨_, ⟨⟩⟩ := Option.ite_none_right_eq_some.mp hstep
    exact .inl (hsubmit ..)
  | execOne w handle =>
    obtain ⟨_, ⟨⟩⟩ := Option.ite_none_right_eq_some.mp hstep
    exact .inl rfl
  | run w =>
    obtain ⟨c, rest, f, _, _, rfl⟩ := step_run hstep
    left
    unfold runFrame
    split
    · rfl
    · rfl
    · split <;> rfl
  | leave w =>
    obtain ⟨c, rest, _, _, rfl⟩ := step_leave hstep
    exact .inl rfl
  | check w =>
    obtain ⟨c, rest, hcalls, _, rfl⟩ := step_check hstep
    right
    refine ⟨w, c, rest, hcalls, ?_⟩
    simp only [checkHandle]
    split <;> rfl

end Tracked

/-- In every run in which no nested task finishes inside of the `exec_task`
call that was given its own handle, and no detached root finishes while two
calls were given its handle, no call has inspected a destroyed frame, and no
call in progress will find its frame destroyed as things are. -/
theorem inspects_live_frames (n : Nat) (cfg : Config) (s : State n)
    (h : (machine n cfg).ReachableUnder FinishesWhereInspected s) :
    s.stale = [] ∧ ∀ w, ∀ call ∈ s.calls w, (s.frames call.handle).status ≠ .destroyed := by
  have hlive : ∀ u : State n, (machine n cfg).ReachableUnder FinishesWhereInspected u →
      ∀ w, ∀ call ∈ u.calls w, (u.frames call.handle).status ≠ .destroyed := by
    intro u hu w call hc
    exact (tracked_of_reachable hu).inspectable.live _ (mem_handles.mpr ⟨w, call, hc, rfl⟩)
  refine ⟨?_, hlive s h⟩
  refine h.invariant (I := fun s => s.stale = []) (fun s h0 => Init.stale h0) ?_
  intro s a s' hr hs _ hstep
  have hstep : step cfg s a = some s' := hstep
  rcases stale_step hstep with heq | ⟨w, c, rest, hcalls, heq⟩
  · rw [heq, hs]
  · rw [heq, if_neg (hlive s hr w c (by simp [hcalls])), hs]

/-- The engines before the first task. -/
def emptyState (n : Nat) : State n where
  frames _ := ⟨.suspended, .ret, none, .none⟩
  size := 0
  taskQueue _ := []
  waiting := []
  calls _ := []
  recursiveDepth _ := 0
  destroys _ := 0
  stale := []

theorem init_emptyState : Init (emptyState n) :=
  ⟨rfl, fun _ => rfl, rfl, fun _ => rfl, fun _ => rfl, rfl⟩

/-- A detached root awaits a task that suspends once.  The engine is then
given the handle of the nested task, which finishes into the root. -/
def nestedRun : List (Label 1) :=
  [.spawn 0 (.await (.suspend .ret) .ret) true none, .execOne 0 0, .run 0, .run 0, .leave 0,
    .check 0, .wake 0 1 none, .execOne 0 1, .run 0, .run 0, .check 0]

/-- A detached root suspends.  Its `await_suspend` wakes it again, for instance
because it unlocks a mutex, and finds the queue full. -/
def reentryRun : List (Label 1) :=
  [.spawn 0 (.suspend .ret) true none, .execOne 0 0, .spawn 0 .ret true none, .run 0,
    .wake 0 0 (some 0), .run 0, .check 0, .leave 0, .check 0]

/-- A task that awaits a task and suspends on its own, behind it.  The
`await_suspend` submits another task, which runs inline. -/
def rootRun : List (Label 1) :=
  [.spawn 0 (.await .ret (.suspend .ret)) true none, .execOne 0 0, .spawn 0 .ret true none,
    .run 0, .run 0, .run 0, .spawn 0 .ret false (some 0), .run 0, .check 0, .leave 0, .check 0,
    .execOne 0 1, .run 0, .check 0, .wake 0 0 none, .execOne 0 0, .run 0, .check 0]

theorem inspects_live_frames_root :
    ∃ s, (machine 1 ⟨1, 4⟩).ReachableUnder FinishesWhereInspected s ∧
      (s.destroys 0 = 1 ∧ s.size = 4) ∧ s.stale = [] := by
  have hrun : ((machine 1 ⟨1, 4⟩).runUnder FinishesWhereInspected (emptyState 1) rootRun).map
      (fun s => decide (s.destroys 0 = 1 ∧ s.size = 4)) = some true := by decide
  obtain ⟨s, hs, htest⟩ := Machine.reachableUnder_of_run init_emptyState hrun
  exact ⟨s, hs, of_decide_eq_true htest, (inspects_live_frames 1 _ s hs).1⟩

/-- `exec_task` inspects the frame of the nested task after the parent has
destroyed it. -/
theorem nested_finish_is_stale :
    ∃ s, (machine 1 ⟨16, 4⟩).Reachable s ∧ s.stale = [1] := by
  have hrun : ((machine 1 ⟨16, 4⟩).run (emptyState 1) nestedRun).map
      (fun s => decide (s.stale = [1])) = some true := by decide
  obtain ⟨s, hs, htest⟩ := Machine.reachable_of_run init_emptyState hrun
  exact ⟨s, hs, of_decide_eq_true htest⟩

-- The outer call inspects the root, and destroys it a second time.
example : ((machine 1 ⟨1, 4⟩).run (emptyState 1) reentryRun).map
    (fun s => (s.stale, s.destroys 0)) = some ([0], 2) := by decide

end SheepCoro.Engine
