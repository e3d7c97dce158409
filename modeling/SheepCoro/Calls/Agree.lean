import SheepCoro.Calls.Meaning

/-!
# The machine computes what bodies mean

`direct` is the machine without frames: of every root it knows the tree that
`Body.eval` gives, and its events are a call, an answer and the end.  A run of
the frames shows an observer such events (`visible`), whatever the frames do
in between and in whatever order the roots are taken.

`Agrees` relates the two: a root means what the direct machine has for it, up
to silent steps.  It is kept by every step (`agrees_step`), so every run of
the frames is one of the direct machine, with the same requests and outcomes.
-/

namespace SheepCoro.Calls

open Lib

open Container (Call Outcome Variant)

variable {T E Q A φ : Type} [DecidableEq φ] {unset : E} {s s' : State T E Q A φ}
  {a : Label T E Q A φ} {d : φ → Option (Tree Q A (Outcome T E))}
  {f g h r : φ} {fr ch : Frame T E Q A φ} {i : Nat} {t t' : Tree Q A (Outcome T E)}

/-- What an observer sees of a root task. -/
inductive Event (T E Q A φ : Type)
  | spawn (r : φ) (b : Body T E Q A)
  /-- Its request is answered. -/
  | answer (r : φ) (a : A)
  | clean (r : φ)

def direct : Machine (φ → Option (Tree Q A (Outcome T E))) (Event T E Q A φ) where
  init d := d = fun _ => none
  step d e :=
    match e with
    | .spawn r b =>
      match d r with
      | none => some (Function.update d r (some (b.eval [])))
      | some _ => none
    | .answer r a =>
      match d r with
      | some (.ask _ k) => some (Function.update d r (some (k a)))
      | _ => none
    | .clean r =>
      match d r with
      | some (.done _) => some (Function.update d r none)
      | _ => none

def visible (s : State T E Q A φ) : Label T E Q A φ → List (Event T E Q A φ)
  | .spawn r b => [.spawn r b]
  | .start _ | .run .. => []
  | .answer f a => ((s.frames f).map fun fr => Event.answer fr.root a).toList
  | .clean r => [.clean r]

/-! ## Roots -/

def IsRoot (s : State T E Q A φ) (r : φ) : Prop :=
  ∃ fr, s.frames r = some fr ∧ fr.root = r

theorem isRoot_put {fr' : Frame T E Q A φ} (hfr : s.frames f = some fr)
    (hroot : fr'.root = fr.root) : IsRoot (s.put f fr') r ↔ IsRoot s r := by
  unfold IsRoot
  by_cases hr : r = f
  · subst hr
    rw [put_frames, Function.update_self, hfr]
    constructor
    · rintro ⟨_, ⟨⟩, heq⟩
      exact ⟨fr, rfl, hroot ▸ heq⟩
    · rintro ⟨_, ⟨⟩, heq⟩
      exact ⟨fr', rfl, hroot.trans heq⟩
  · rw [put_frames, Function.update_of_ne hr]

/-- A new frame that is not one of a root task. -/
theorem isRoot_put_free (hfree : s.frames g = none) (hroot : ch.root ≠ g) :
    IsRoot (s.put g ch) r ↔ IsRoot s r := by
  unfold IsRoot
  by_cases hr : r = g
  · subst hr
    rw [put_frames, Function.update_self, hfree]
    constructor
    · rintro ⟨_, ⟨⟩, heq⟩
      exact absurd heq hroot
    · rintro ⟨_, ⟨⟩, _⟩
  · rw [put_frames, Function.update_of_ne hr]

theorem isRoot_destroy {gs : List φ} (hno : ∀ g ∈ gs, ¬ IsRoot s g) :
    IsRoot (s.destroy gs) r ↔ IsRoot s r := by
  constructor
  · rintro ⟨fr, hfr, hroot⟩
    exact ⟨fr, (destroy_frames.mp hfr).2, hroot⟩
  · rintro ⟨fr, hfr, hroot⟩
    exact ⟨fr, destroy_frames.mpr ⟨fun hin => hno r hin ⟨fr, hfr, hroot⟩, hfr⟩, hroot⟩

omit [DecidableEq φ] in
theorem Heap.task_not_root (hh : Heap s) (hfr : s.frames f = some fr)
    (hslot : fr.tasks[i]? = some (some g)) : ¬ IsRoot s g := by
  rintro ⟨ch, hch, hroot⟩
  exact hh.root_free hch hroot.symm f i ⟨fr, hfr, hslot⟩

/-- A step of a coroutine makes no root task and ends none. -/
theorem run_isRoot (hh : Heap s) (hfr : s.frames f = some fr) (hs : RunCase unset s f g fr s') :
    IsRoot s' r ↔ IsRoot s r := by
  have hgone : ∀ {fr' : Frame T E Q A φ} {gs : List φ}, fr'.root = fr.root →
      (∀ g ∈ gs, ∃ j : Nat, fr.tasks[j]? = some (some g)) →
      (IsRoot ((s.put f fr').destroy gs) r ↔ IsRoot s r) := by
    intro fr' gs hroot hgs
    rw [isRoot_destroy, isRoot_put hfr hroot]
    intro g hg
    obtain ⟨j, hslot⟩ := hgs g hg
    rw [isRoot_put hfr hroot]
    exact hh.task_not_root hfr hslot
  cases hs with
  | finish hstatus _ hfinish =>
    rcases hh.finish_cases hfr hstatus hfinish with ⟨_, rfl⟩ |
        ⟨p, frp, i, k, hp, hslot, _, hnow, rfl⟩
    · exact hgone rfl fun g => Heap.task_of_mem
    · exact (isRoot_put hnow (by rfl)).trans (hgone rfl fun g => Heap.task_of_mem)
  | ask hstatus => exact isRoot_put hfr rfl
  | @make child rest hstatus hfree =>
    have hgf : g ≠ f := by
      rintro rfl
      rw [hfree] at hfr
      cases hfr
    have hgroot : fr.root ≠ g := by
      rintro rfl
      obtain ⟨top, htop, _⟩ := hh.rooted hfr
      rw [hfree] at htop
      cases htop
    have hcaller : IsRoot (s.put f { fr with
        status := Status.running rest
        tasks := fr.tasks ++ [some g] }) r ↔ IsRoot s r :=
      isRoot_put hfr rfl
    rw [← hcaller]
    exact isRoot_put_free ((Function.update_of_ne hgf ..).trans hfree) hgroot
  | ready => exact isRoot_put hfr rfl
  | @join i k h child b hstatus htask hchild hcreated =>
    have hcaller : IsRoot (s.put f { fr with status := .joining i k }) r ↔ IsRoot s r :=
      isRoot_put hfr rfl
    rw [← hcaller]
    exact isRoot_put ((Function.update_of_ne (hh.owner_ne hfr htask) ..).trans hchild) rfl
  | @drop i rest h hstatus htask =>
    refine hgone rfl ?_
    intro g hg
    obtain rfl := Option.mem_toList.mp hg
    exact ⟨i, htask⟩
  | joined => exact isRoot_put hfr rfl

/-! ## The simulation -/

structure Agrees (unset : E) (s : State T E Q A φ) (d : φ → Option (Tree Q A (Outcome T E))) :
    Prop where
  means : ∀ r, IsRoot s r → ∃ t, Means unset s r t ∧ d r = some t.erase
  rest : ∀ r, ¬ IsRoot s r → d r = none

omit [DecidableEq φ] in
theorem agrees_newState : Agrees unset (newState : State T E Q A φ) fun _ => none := by
  constructor
  · rintro r ⟨_, ⟨⟩, _⟩
  · exact fun r _ => rfl

/-- One root changes, together with what the direct machine has for it. -/
theorem Agrees.update (ha : Agrees unset s d) (hh : Heap s) (hroots : ∀ r, IsRoot s' r ↔ IsRoot s r)
    (hkeep : ∀ x fx, s.frames x = some fx → fx.root ≠ r → s'.frames x = some fx)
    (hr : IsRoot s r) (hm : Means unset s' r t) :
    Agrees unset s' (Function.update d r (some t.erase)) := by
  constructor
  · intro r' hr'
    by_cases hsame : r' = r
    · subst hsame
      exact ⟨t, hm, Function.update_self ..⟩
    · obtain ⟨u, hu, hd⟩ := ha.means r' ((hroots r').mp hr')
      obtain ⟨fx, hx, hroot⟩ := (hroots r').mp hr'
      refine ⟨u, hu.keep hh hx ?_, (Function.update_of_ne hsame ..).trans hd⟩
      intro y fy hy heq
      exact hkeep y fy hy (heq.trans hroot ▸ hsame)
  · intro r' hr'
    have hne : r' ≠ r := by
      rintro rfl
      exact hr' ((hroots r').mpr hr)
    exact (Function.update_of_ne hne ..).trans (ha.rest r' fun hold => hr' ((hroots r').mpr hold))

/-- One root changes in what the direct machine does not see. -/
theorem Agrees.silent (ha : Agrees unset s d) (hh : Heap s)
    (hroots : ∀ r, IsRoot s' r ↔ IsRoot s r)
    (hkeep : ∀ x fx, s.frames x = some fx → fx.root ≠ r → s'.frames x = some fx)
    (hr : IsRoot s r) (hm : Means unset s r t) (hm' : Means unset s' r t')
    (hsame : t.erase = t'.erase) : Agrees unset s' d := by
  obtain ⟨u, hu, hd⟩ := ha.means r hr
  obtain rfl := hm.unique hu
  have hupdate := ha.update hh hroots hkeep hr hm'
  rw [← hsame, ← hd, Function.update_eq_self] at hupdate
  exact hupdate

theorem Heap.isRoot_of_frame (hh : Heap s) (hfr : s.frames f = some fr) : IsRoot s fr.root := by
  obtain ⟨top, htop, hroot⟩ := hh.rooted hfr
  exact ⟨top, htop, hroot⟩

/-- The direct machine follows a step: it stays, or makes the event that the
step shows. -/
theorem agrees_step (hh : Heap s) (ha : Agrees unset s d) (hs : step unset s a = some s') :
    ∃ d', direct.run d (visible s a) = some d' ∧ Agrees unset s' d' := by
  cases step_cases hs with
  | @spawn r b hfree =>
    have hnot : ¬ IsRoot s r := by
      rintro ⟨fr, hfr, _⟩
      rw [hfree] at hfr
      cases hfr
    have hothers : ∀ {x}, x ≠ r → (IsRoot (s.put r (newFrame r 0 b)) x ↔ IsRoot s x) := by
      intro x hx
      unfold IsRoot
      rw [put_frames, Function.update_of_ne hx]
    refine ⟨Function.update d r (some (b.eval [])), ?_, ?_, ?_⟩
    · refine Machine.run_cons.mpr ⟨_, ?_, rfl⟩
      simp only [direct, ha.rest r hnot]
    · intro x hx
      by_cases hxr : x = r
      · subst hxr
        refine ⟨b.pace [], .own (Function.update_self ..) rfl, ?_⟩
        rw [Function.update_self, erase_pace]
        rfl
      · obtain ⟨u, hu, hd⟩ := ha.means x ((hothers hxr).mp hx)
        obtain ⟨fx, hfx, _⟩ := (hothers hxr).mp hx
        refine ⟨u, hu.keep hh hfx ?_, (Function.update_of_ne hxr ..).trans hd⟩
        intro y fy hy _
        refine (Function.update_of_ne ?_ ..).trans hy
        rintro rfl
        rw [hfree] at hy
        cases hy
    · intro x hx
      have hxr : x ≠ r := by
        rintro rfl
        exact hx ⟨_, Function.update_self .., rfl⟩
      exact (Function.update_of_ne hxr ..).trans (ha.rest x fun hold => hx ((hothers hxr).mpr hold))
  | @start r fr b hfr hstatus hroot =>
    have hnil : fr.tasks = [] := (hh.sound r fr hfr).bare (by rw [hstatus]; rfl)
    refine ⟨d, rfl, ?_⟩
    refine ha.silent hh (fun r' => isRoot_put hfr rfl) (r := r) ?_ ⟨fr, hfr, hroot⟩
      (.own hfr (by rw [State.tree, hstatus])) (.own (Function.update_self ..) rfl) ?_
    · exact fun x fx hx hne => local_put.away hfr (hroot.symm ▸ hne) x fx hx rfl
    · unfold State.env
      rw [hnil, List.map_nil]
  | @run f g fr s' hfr hrun =>
    obtain ⟨u, x, fx, hu, hu', hx, hroot, hlocal⟩ := run_means hh hfr hrun
    refine ⟨d, rfl, ha.silent hh (fun r => run_isRoot hh hfr hrun) ?_ (hh.isRoot_of_frame hfr)
      hu hu' rfl⟩
    exact fun y fy hy hne => hlocal.away hx (hroot ▸ hne) y fy hy rfl
  | @answer f a fr q k hfr hstatus =>
    have hask : Means unset s f (.ask q fun a => (k a).pace (s.env unset fr)) :=
      .own hfr (by rw [State.tree, hstatus])
    have hnext : Means unset (s.put f { fr with status := .running (k a) }) f
        ((k a).pace (s.env unset fr)) := by
      rw [← hh.env_put hfr]
      exact .own (Function.update_self ..) rfl
    obtain ⟨u, u', hu, hu', q', k', rfl, rfl⟩ := hask.climb
      (R := fun t t' => ∃ q k, t = .ask q k ∧ t' = k a)
      (by rintro _ _ K ⟨q, k, rfl, rfl⟩; exact ⟨q, _, rfl, rfl⟩) hh hfr
      (.inr (by rw [hstatus]; rfl)) local_put hnext ⟨q, _, rfl, rfl⟩
    have hisroot := hh.isRoot_of_frame hfr
    obtain ⟨v, hv, hd⟩ := ha.means fr.root hisroot
    obtain rfl := hv.unique hu
    refine ⟨Function.update d fr.root (some (k' a).erase), ?_, ?_⟩
    · have hvisible : visible s (.answer f a) = [Event.answer fr.root a] := by
        simp only [visible, hfr, Option.map_some, Option.toList_some]
      rw [hvisible]
      refine Machine.run_cons.mpr ⟨_, ?_, rfl⟩
      simp only [direct, hd, Tree.erase_ask]
    · refine ha.update hh (fun r => isRoot_put hfr rfl) ?_ hisroot hu'
      exact fun x fx hx hne => local_put.away hfr hne x fx hx rfl
  | @clean r fr hfr hstatus hroot =>
    obtain ⟨u, hu, hd⟩ := ha.means r ⟨fr, hfr, hroot⟩
    have hdone : Means unset s r (.done (fr.container.result unset)) :=
      .own hfr (by rw [State.tree, hstatus])
    obtain rfl := hu.unique hdone
    have hothers : ∀ {x}, IsRoot (s.destroy [r]) x ↔ x ≠ r ∧ IsRoot s x := by
      intro x
      unfold IsRoot
      constructor
      · rintro ⟨fx, hx, hroot⟩
        obtain ⟨hout, hx⟩ := destroy_frames.mp hx
        exact ⟨List.mem_singleton.not.mp hout, fx, hx, hroot⟩
      · rintro ⟨hne, fx, hx, hroot⟩
        exact ⟨fx, destroy_frames.mpr ⟨List.mem_singleton.not.mpr hne, hx⟩, hroot⟩
    refine ⟨Function.update d r none, ?_, ?_, ?_⟩
    · refine Machine.run_cons.mpr ⟨_, ?_, rfl⟩
      simp only [direct, hd, Tree.erase_done]
    · intro x hx
      obtain ⟨hxr, hold⟩ := hothers.mp hx
      obtain ⟨u, hu, hd⟩ := ha.means x hold
      obtain ⟨fx, hfx, hxroot⟩ := hold
      refine ⟨u, hu.keep hh hfx ?_, (Function.update_of_ne hxr ..).trans hd⟩
      intro y fy hy hsame
      refine destroy_frames.mpr ⟨List.mem_singleton.not.mpr ?_, hy⟩
      rintro rfl
      rw [Option.some.inj (hy.symm.trans hfr)] at hsame
      exact hxr (hxroot.symm.trans (hsame.symm.trans hroot))
    · intro x hx
      by_cases hxr : x = r
      · subst hxr
        exact Function.update_self ..
      · exact (Function.update_of_ne hxr ..).trans
          (ha.rest x fun hold => hx (hothers.mpr ⟨hxr, hold⟩))

/-- The direct machine follows a run. -/
theorem agrees_of_run {as : List (Label T E Q A φ)}
    (hrun : (machine unset).run newState as = some s) :
    ∃ d, direct.run (fun _ => none) ((machine unset).shown visible newState as) = some d ∧
      Agrees unset s d := by
  have hinit : (machine unset).Reachable (newState : State T E Q A φ) := .init rfl
  refine Machine.path_invariant (I := fun as s => ∃ d, direct.run (fun _ => none)
    ((machine unset).shown visible newState as) = some d ∧ Agrees unset s d)
    ⟨_, rfl, agrees_newState⟩ ?_ hrun
  intro as s a s' hrun hI hs
  obtain ⟨d, hd, ha⟩ := hI
  obtain ⟨d', hd', ha'⟩ := agrees_step (heap_of_reachable (hinit.run hrun)) ha hs
  refine ⟨d', ?_, ha'⟩
  rw [Machine.shown_concat hrun hs]
  exact Machine.run_append.mpr ⟨d, hd, hd'⟩

/-! ## What is observed -/

/-- What can be seen of the frames is what the direct machine has. -/
structure Observed (unset : E) (s : State T E Q A φ) (d : φ → Option (Tree Q A (Outcome T E))) :
    Prop where
  roots : ∀ r, IsRoot s r ↔ d r ≠ none
  outcome : ∀ r fr, s.frames r = some fr → fr.root = r → fr.status = .done →
    d r = some (.done (fr.container.result unset))
  request : ∀ f fr q k, s.frames f = some fr → fr.status = .asking q k →
    ∃ k, d fr.root = some (.ask q k)
  /-- Nothing is left of the calls of a root that is done. -/
  alone : ∀ r fr, s.frames r = some fr → fr.root = r → fr.status = .done →
    ∀ x fx, s.frames x = some fx → fx.root = r → x = r

/-- Below every frame of a root but the root itself there is a task of the
root. -/
theorem Heap.first_call (hh : Heap s) (hfr : s.frames f = some fr) (hne : f ≠ fr.root) :
    ∃ i g, Owns s fr.root i g := by
  induction hd : fr.depth using Nat.strongRecOn generalizing f fr with
  | ind n ih =>
    obtain ⟨p, i, frp, hp, hslot⟩ := hh.kept f fr hfr hne
    obtain ⟨hroot, hdepth⟩ := hh.below hp hslot hfr
    by_cases htop : p = frp.root
    · exact ⟨i, f, frp, hroot ▸ htop ▸ hp, hslot⟩
    · rw [hroot]
      exact ih frp.depth (hd ▸ hdepth) hp htop rfl

theorem Agrees.observed (hh : Heap s) (ha : Agrees unset s d) : Observed unset s d where
  roots r := by
    constructor
    · intro hr
      obtain ⟨t, _, hd⟩ := ha.means r hr
      rw [hd]
      exact Option.some_ne_none _
    · intro hd
      by_contra hr
      exact hd (ha.rest r hr)
  outcome r fr hfr hroot hstatus := by
    obtain ⟨t, ht, hd⟩ := ha.means r ⟨fr, hfr, hroot⟩
    have hdone : Means unset s r (.done (fr.container.result unset)) :=
      .own hfr (by rw [State.tree, hstatus])
    rw [hd, ht.unique hdone]
    rfl
  request f fr q k hfr hstatus := by
    have hask : Means unset s f (.ask q fun a => (k a).pace (s.env unset fr)) :=
      .own hfr (by rw [State.tree, hstatus])
    obtain ⟨u, _, hu, _, k', rfl⟩ := hask.climb (R := fun t _ => ∃ k, t = .ask q k)
      (by rintro _ _ K ⟨k, rfl⟩; exact ⟨_, rfl⟩) hh hfr (.inr (by rw [hstatus]; rfl))
      (fun _ _ hx _ _ => hx) hask ⟨_, rfl⟩
    obtain ⟨t, ht, hd⟩ := ha.means fr.root (hh.isRoot_of_frame hfr)
    rw [hd, ht.unique hu]
    exact ⟨_, rfl⟩
  alone r fr hfr hroot hstatus x fx hx hsame := by
    by_contra hne
    obtain ⟨i, g, top, htop, hslot⟩ := hh.first_call hx (hsame ▸ hne)
    rw [hsame, hfr] at htop
    cases htop
    rw [(hh.sound r fr hfr).bare (by rw [hstatus]; rfl)] at hslot
    cases hslot

/-- In every run, with whatever root moves next, the coroutines ask what their
bodies ask by the direct meaning and end with its outcomes, given the answers
of the run.  When a root is done, no frame of its calls is left. -/
theorem calls_agree {as : List (Label T E Q A φ)}
    (hrun : (machine unset).run newState as = some s) :
    ∃ d, direct.run (fun _ => none) ((machine unset).shown visible newState as) = some d ∧
      Observed unset s d := by
  obtain ⟨d, hd, ha⟩ := agrees_of_run hrun
  have hinit : (machine unset).Reachable (newState : State T E Q A φ) := .init rfl
  exact ⟨d, hd, ha.observed (heap_of_reachable (hinit.run hrun))⟩

/-- `co_return 2 * co_await request;` -/
def twice : Body Nat String Unit Nat :=
  .ask () fun a => .ret (2 * a)

/-- `co_await twice()`, behind which the outcome is checked. -/
def checked : Body Nat String Unit Nat :=
  .make twice (.join 0 fun o => .drop 0
    (if o = .returned 10 then .ret 11 else .throw "unexpected"))

/-- A whole run of `checked`, with the answer 5. -/
def callRun : List (Label Nat String Unit Nat Nat) :=
  [.spawn 0 checked, .start 0, .run 0 1, .run 0 2, .run 1 2, .answer 1 5, .run 1 2, .run 0 2,
    .run 0 2, .run 0 2]

example : ((machine "unset").run newState callRun).map
    (fun s => ((s.frames 0).map (·.container.result "unset"), (s.frames 1).isNone)) =
      some (some (.returned 11), true) := by decide

theorem calls_agree_callRun : ∃ s d, (machine "unset").run newState callRun = some s ∧
    direct.run (fun _ => none) ((machine "unset").shown visible newState callRun) = some d ∧
      Observed "unset" s d := by
  have hsome : ((machine "unset").run newState callRun).isSome = true := by decide
  obtain ⟨s, hs⟩ := Option.isSome_iff_exists.mp hsome
  obtain ⟨d, hd, hobserved⟩ := calls_agree hs
  exact ⟨s, d, hs, hd, hobserved⟩

end SheepCoro.Calls
