import SheepCoro.Calls.Heap

/-!
# What a heap of frames means

A frame that awaits no task means what its body does with the local tasks that
it has (`State.tree`).  A frame that awaits a task means that task, and behind
it what the body does with the outcome (`Means`).

A step changes the frame that moves and frames below it.  So what a root means
changes as the frame that moves does (`Means.climb`), and what the other roots
mean stays (`Means.keep`).  A step of a coroutine takes one silent step off
what its root means (`run_means`).
-/

namespace SheepCoro.Calls

open Lib

open Container (Call Outcome Variant)

variable {T E Q A φ : Type} [DecidableEq φ] {unset : E} {s s' : State T E Q A φ}
  {f g h r : φ} {fr ch : Frame T E Q A φ} {i : Nat} {t t' : Tree Q A (Outcome T E)}

/-- What a local task stands for. -/
def State.cell (unset : E) (s : State T E Q A φ) : Option φ → Cell T E Q A
  | none => .gone
  | some h =>
    match s.frames h with
    | some ch =>
      match ch.status with
      | .created b => .thunk (b.pace [])
      | .done => .value (ch.container.result unset)
      | _ => .gone
    | none => .gone

def State.env (unset : E) (s : State T E Q A φ) (fr : Frame T E Q A φ) : List (Cell T E Q A) :=
  fr.tasks.map (s.cell unset)

/-- What a coroutine does that awaits no task. -/
def State.tree (unset : E) (s : State T E Q A φ) (fr : Frame T E Q A φ) :
    Option (Tree Q A (Outcome T E)) :=
  match fr.status with
  | .created b => some (b.pace [])
  | .running b => some (b.pace (s.env unset fr))
  | .joining .. => none
  | .joined i k =>
    match fr.tasks[i]? with
    | some (some h) => (s.frames h).map fun ch =>
        .later ((k (ch.container.result unset)).pace (s.env unset fr))
    | _ => none
  | .asking q k => some (.ask q fun a => (k a).pace (s.env unset fr))
  | .done => some (.done (fr.container.result unset))

/-- What a coroutine does behind the `co_await` of its `i`-th task. -/
def State.rest (unset : E) (s : State T E Q A φ) (fr : Frame T E Q A φ) (i : Nat)
    (k : Outcome T E → Body T E Q A) (o : Outcome T E) : Tree Q A (Outcome T E) :=
  .later ((k o).pace ((s.env unset fr).set i (.value o)))

inductive Means (unset : E) (s : State T E Q A φ) : φ → Tree Q A (Outcome T E) → Prop
  | own {f : φ} {fr : Frame T E Q A φ} {t : Tree Q A (Outcome T E)} (hfr : s.frames f = some fr)
      (htree : s.tree unset fr = some t) : Means unset s f t
  | call {f g : φ} {fr : Frame T E Q A φ} {i : Nat} {k : Outcome T E → Body T E Q A}
      {t : Tree Q A (Outcome T E)} (hfr : s.frames f = some fr)
      (hstatus : fr.status = .joining i k) (htask : fr.tasks[i]? = some (some g))
      (hcallee : Means unset s g t) : Means unset s f (t.bind (s.rest unset fr i k))

section

omit [DecidableEq φ]

theorem Means.unique (hm : Means unset s f t) (hm' : Means unset s f t') : t = t' := by
  induction hm generalizing t' with
  | own hfr htree =>
    cases hm' with
    | own hfr' htree' =>
      rw [Option.some.inj (hfr.symm.trans hfr'), htree'] at htree
      exact (Option.some.inj htree).symm
    | call hfr' hstatus =>
      rw [Option.some.inj (hfr.symm.trans hfr'), State.tree, hstatus] at htree
      cases htree
  | call hfr hstatus htask hcallee ih =>
    cases hm' with
    | own hfr' htree =>
      rw [← Option.some.inj (hfr.symm.trans hfr'), State.tree, hstatus] at htree
      cases htree
    | call hfr' hstatus' htask' hcallee' =>
      obtain rfl := Option.some.inj (hfr.symm.trans hfr')
      rw [hstatus'] at hstatus
      cases hstatus
      rw [htask'] at htask
      cases htask
      rw [ih hcallee']

/-! ## Frames that stay -/

theorem cell_congr {c : Option φ} (hsame : ∀ h, c = some h → s'.frames h = s.frames h) :
    s'.cell unset c = s.cell unset c := by
  cases c with
  | none => rfl
  | some h =>
    simp only [State.cell, hsame h rfl]

theorem env_congr (hsame : ∀ (j : Nat) h, fr.tasks[j]? = some (some h) → s'.frames h = s.frames h) :
    s'.env unset fr = s.env unset fr := by
  apply List.map_congr_left
  intro c hc
  apply cell_congr
  rintro h rfl
  obtain ⟨j, hj⟩ := List.mem_iff_getElem?.mp hc
  exact hsame j h hj

/-- The cell of one task does not matter when it is written. -/
theorem env_set_congr {c : Cell T E Q A} (hsame : ∀ (j : Nat) h, j ≠ i →
      fr.tasks[j]? = some (some h) → s'.frames h = s.frames h) :
    (s'.env unset fr).set i c = (s.env unset fr).set i c := by
  apply List.ext_getElem?
  intro j
  by_cases hj : i = j
  · subst hj
    rw [List.getElem?_set_self', List.getElem?_set_self']
    simp [State.env]
  · rw [List.getElem?_set_ne hj, List.getElem?_set_ne hj]
    unfold State.env
    rw [List.getElem?_map, List.getElem?_map]
    cases hc : fr.tasks[j]? with
    | none => rfl
    | some c =>
      refine congrArg some (cell_congr ?_)
      rintro h rfl
      exact hsame j h (fun heq => hj heq.symm) hc

theorem tree_congr (hsame : ∀ (j : Nat) h, fr.tasks[j]? = some (some h) →
      s'.frames h = s.frames h) : s'.tree unset fr = s.tree unset fr := by
  unfold State.tree
  rw [env_congr hsame]
  split
  · rfl
  · rfl
  · rfl
  · split
    · next h htask => rw [hsame _ h htask]
    · rfl
  · rfl
  · rfl

/-- Only `f` and frames below it have changed. -/
def Local (s s' : State T E Q A φ) (f : φ) (fr : Frame T E Q A φ) : Prop :=
  ∀ x fx, s.frames x = some fx → x ≠ f → fx.depth ≤ fr.depth ∨ fx.root ≠ fr.root →
    s'.frames x = some fx

theorem Local.task (hl : Local s s' f fr) (hh : Heap s) {x : φ} {fx : Frame T E Q A φ}
    {j : Nat} (hx : s.frames x = some fx) (hslot : fx.tasks[j]? = some (some h)) (hne : h ≠ f)
    (hfar : fx.depth < fr.depth ∨ fx.root ≠ fr.root) : s'.frames h = s.frames h := by
  obtain ⟨ch, hch, hfits⟩ := hh.fits x fx j h hx hslot
  rw [hch]
  apply hl h ch hch hne
  rw [hfits.root, hfits.depth]
  exact hfar.imp_left Nat.succ_le_of_lt

/-- The frames of other roots stay. -/
theorem Local.away (hl : Local s s' f fr) (hfr : s.frames f = some fr) (hne : r ≠ fr.root) :
    ∀ x fx, s.frames x = some fx → fx.root = r → s'.frames x = some fx := by
  intro x fx hx hroot
  refine hl x fx hx ?_ (.inr (hroot ▸ hne))
  rintro rfl
  rw [Option.some.inj (hx.symm.trans hfr)] at hroot
  exact hne hroot.symm

/-- When the frames of a root stay, so does what they mean. -/
theorem Means.keep (hm : Means unset s g t) (hh : Heap s) (hg : s.frames g = some ch)
    (hkeep : ∀ x fx, s.frames x = some fx → fx.root = ch.root → s'.frames x = some fx) :
    Means unset s' g t := by
  have htasks : ∀ {x fx}, s.frames x = some fx → fx.root = ch.root →
      ∀ (j : Nat) h, fx.tasks[j]? = some (some h) → s'.frames h = s.frames h := by
    intro x fx hx hroot j h hslot
    obtain ⟨ch', hch', hfits⟩ := hh.fits x fx j h hx hslot
    rw [hch']
    exact hkeep h ch' hch' (hfits.root.trans hroot)
  generalize hr : ch.root = r at hkeep htasks
  induction hm generalizing ch with
  | own hx htree =>
    obtain rfl := Option.some.inj (hx.symm.trans hg)
    exact .own (hkeep _ _ hx hr) ((tree_congr (htasks hx hr)).trans htree)
  | @call x y fx j k t hx hstatus htask hcallee ih =>
    obtain rfl := Option.some.inj (hx.symm.trans hg)
    obtain ⟨chy, hchy, hfits⟩ := hh.fits x _ _ y hx htask
    have hrest : s'.rest unset fx j k = s.rest unset fx j k := by
      unfold State.rest
      rw [env_congr (htasks hx hr)]
    rw [← hrest]
    exact .call (hkeep _ _ hx hr) hstatus htask (ih hchy (hfits.root.trans hr))

end

/-- The roots of the frames that move.  A relation between trees that `bind`
keeps is carried from a frame to its root. -/
theorem Means.climb {R : Tree Q A (Outcome T E) → Tree Q A (Outcome T E) → Prop}
    (hR : ∀ t t' K, R t t' → R (t.bind K) (t'.bind K)) (hh : Heap s)
    (hfr : s.frames f = some fr) (hbusy : f = fr.root ∨ fr.status.idle = false)
    (hl : Local s s' f fr) (hm : Means unset s f t) (hm' : Means unset s' f t') (ht : R t t') :
    ∃ u u', Means unset s fr.root u ∧ Means unset s' fr.root u' ∧ R u u' := by
  induction hd : fr.depth using Nat.strongRecOn generalizing f fr t t' with
  | ind d ih =>
    by_cases hroot : f = fr.root
    · exact ⟨t, t', hroot ▸ hm, hroot ▸ hm', ht⟩
    · obtain ⟨p, frp, i, hp, hslot, hjoins, _, hsame, hdepth⟩ :=
        hh.caller hfr (hbusy.resolve_left hroot) hroot
      obtain ⟨k, hstatus⟩ := joins_eq hjoins
      have hpf : p ≠ f := (hh.owner_ne hp hslot).symm
      have hkeep : s'.frames p = some frp := hl p frp hp hpf (.inl (by omega))
      have hrest : s'.rest unset frp i k = s.rest unset frp i k := by
        funext o
        unfold State.rest
        rw [env_set_congr]
        intro j h hj htask
        apply hl.task hh hp htask _ (.inl (by omega))
        rintro rfl
        exact hj (hh.unique p j p i h ⟨frp, hp, htask⟩ ⟨frp, hp, hslot⟩).2
      have hup : Means unset s p (t.bind (s.rest unset frp i k)) := .call hp hstatus hslot hm
      have hup' : Means unset s' p (t'.bind (s.rest unset frp i k)) :=
        hrest ▸ .call hkeep hstatus hslot hm'
      have hlocal : Local s s' p frp := by
        intro x fx hx _ hfar
        have hxf : x ≠ f := by
          rintro rfl
          rw [Option.some.inj (hx.symm.trans hfr)] at hfar
          rcases hfar with hlow | hother
          · omega
          · exact hother hsame.symm
        refine hl x fx hx hxf (hfar.imp ?_ ?_)
        · intro hlow
          omega
        · exact fun hother heq => hother (heq.trans hsame.symm)
      have hbusyp : frp.status.idle = false := by rw [hstatus]; rfl
      rw [← hsame]
      exact ih frp.depth (by omega) hp (.inr hbusyp) hlocal hup hup' (hR _ _ _ ht) rfl

/-! ## One step -/

theorem local_put {fr' : Frame T E Q A φ} : Local s (s.put f fr') f fr :=
  fun _ _ hx hne _ => (Function.update_of_ne hne ..).trans hx

/-- A task changes together with its owner. -/
theorem local_task {fr' fg : Frame T E Q A φ} (hdown : ∀ ch, s.frames g = some ch →
      ch.root = fr.root ∧ fr.depth < ch.depth) : Local s ((s.put f fr').put g fg) f fr := by
  intro x fx hx hne hfar
  have hxg : x ≠ g := by
    rintro rfl
    obtain ⟨hroot, hdepth⟩ := hdown fx hx
    rcases hfar with hlow | hother
    · omega
    · exact hother hroot
  rw [put_frames, put_frames, Function.update_of_ne hxg, Function.update_of_ne hne, hx]

theorem local_destroy {gs : List φ} (hl : Local s s' f fr) (hdown : ∀ g ∈ gs, ∀ ch,
      s.frames g = some ch → ch.root = fr.root ∧ fr.depth < ch.depth) :
    Local s (s'.destroy gs) f fr := by
  intro x fx hx hne hfar
  refine destroy_frames.mpr ⟨?_, hl x fx hx hne hfar⟩
  intro hin
  obtain ⟨hroot, hdepth⟩ := hdown x hin fx hx
  rcases hfar with hlow | hother
  · omega
  · exact hother hroot

section

omit [DecidableEq φ]

theorem cell_created {b : Body T E Q A} (hch : s.frames h = some ch)
    (hstatus : ch.status = .created b) : s.cell unset (some h) = .thunk (b.pace []) := by
  simp only [State.cell, hch, hstatus]

theorem cell_done (hch : s.frames h = some ch) (hstatus : ch.status = .done) :
    s.cell unset (some h) = .value (ch.container.result unset) := by
  simp only [State.cell, hch, hstatus]

theorem env_slot (unset : E) (s : State T E Q A φ) {c : Option φ} (hc : fr.tasks[i]? = some c) :
    (s.env unset fr)[i]? = some (s.cell unset c) := by
  unfold State.env
  rw [List.getElem?_map, hc, Option.map_some]

/-- What a coroutine means that goes on with a body, when its tasks are still
what they were. -/
theorem Means.running {b : Body T E Q A} {fr' : Frame T E Q A φ} (hfr : s'.frames f = some fr')
    (hstatus : fr'.status = .running b) : Means unset s' f (b.pace (s'.env unset fr')) :=
  .own hfr (by rw [State.tree, hstatus])

theorem Heap.below (hh : Heap s) (hfr : s.frames f = some fr)
    (hslot : fr.tasks[i]? = some (some g)) (hg : s.frames g = some ch) :
    ch.root = fr.root ∧ fr.depth < ch.depth := by
  obtain ⟨ch', hch', hfits⟩ := hh.fits f fr i g hfr hslot
  obtain rfl := Option.some.inj (hch'.symm.trans hg)
  exact ⟨hfits.root, hfits.depth ▸ Nat.lt_succ_self _⟩

end

/-- The tasks of a coroutine that changes are still what they were. -/
theorem Heap.env_put {fr' : Frame T E Q A φ} (hh : Heap s) (hfr : s.frames f = some fr) :
    (s.put f fr').env unset fr = s.env unset fr := by
  apply env_congr
  intro j h hslot
  exact Function.update_of_ne (hh.owner_ne hfr hslot) ..

section

omit [DecidableEq φ]

/-- One task has changed. -/
theorem env_eq_set {c : Option φ} {v : Cell T E Q A} (hc : fr.tasks[i]? = some c)
    (hv : s'.cell unset c = v) (hsame : ∀ (j : Nat) h, j ≠ i → fr.tasks[j]? = some (some h) →
      s'.frames h = s.frames h) : s'.env unset fr = (s.env unset fr).set i v := by
  rw [← env_set_congr hsame, ← hv]
  apply List.ext_getElem?
  intro j
  by_cases hj : i = j
  · subst hj
    rw [List.getElem?_set_self', env_slot unset s' hc]
    rfl
  · rw [List.getElem?_set_ne hj]

theorem env_gone (fr : Frame T E Q A φ) {fr' : Frame T E Q A φ}
    (htasks : fr'.tasks = fr.tasks.set i none) :
    s.env unset fr' = (s.env unset fr).set i .gone := by
  unfold State.env
  rw [htasks, List.map_set]
  rfl

theorem env_concat (fr : Frame T E Q A φ) {fr' : Frame T E Q A φ}
    (htasks : fr'.tasks = fr.tasks ++ [some g]) :
    s.env unset fr' = s.env unset fr ++ [s.cell unset (some g)] := by
  unfold State.env
  rw [htasks, List.map_append]
  rfl

end

/-- The outcome that the end of a body stores. -/
theorem pace_end {b : Body T E Q A} {c : Call T E} {v : Variant T E} {env : List (Cell T E Q A)}
    (hb : (∃ value, b = .ret value ∧ c = .returnValue value) ∨
      ∃ e, b = .throw e ∧ c = .setException e) :
    b.pace env = .later (.done ((v.call c).result unset)) := by
  rcases hb with ⟨value, rfl, rfl⟩ | ⟨e, rfl, rfl⟩
  · rfl
  · rfl

/-- The end of a body takes one silent step off what the coroutine means, when
it is the root, and off what its owner means otherwise. -/
theorem finish_moves {b : Body T E Q A} {c : Call T E} (hh : Heap s) (hfr : s.frames f = some fr)
    (hstatus : fr.status = .running b)
    (hb : (∃ value, b = .ret value ∧ c = .returnValue value) ∨
      ∃ e, b = .throw e ∧ c = .setException e) (hs : s.finish f fr c = some s') :
    ∃ x fx t, s.frames x = some fx ∧ fx.root = fr.root ∧ fx.status.idle = false ∧
      Local s s' x fx ∧ Means unset s x (.later t) ∧ Means unset s' x t := by
  have hout := hh.not_mem_tasks hfr
  have hdown : ∀ g ∈ fr.tasks.reduceOption, ∀ ch, s.frames g = some ch →
      ch.root = fr.root ∧ fr.depth < ch.depth := by
    intro g hg ch hch
    obtain ⟨j, hj⟩ := Heap.task_of_mem hg
    exact hh.below hfr hj hch
  have hmeans : Means unset s f (.later (.done ((fr.container.call c).result unset))) :=
    pace_end hb ▸ .running hfr hstatus
  have hnow : ((s.put f (fr.ended c)).destroy fr.tasks.reduceOption).frames f =
      some (fr.ended c) :=
    destroy_frames.mpr ⟨hout, Function.update_self ..⟩
  rcases hh.finish_cases hfr hstatus hs with ⟨hroot, rfl⟩ |
      ⟨p, frp, i, k, hp, hslot, hjoining, _, rfl⟩
  · refine ⟨f, fr, _, hfr, rfl, ?_, local_destroy local_put hdown, hmeans, .own hnow rfl⟩
    rw [hstatus]
    rfl
  · have hfp := hh.owner_ne hp hslot
    obtain ⟨hsame, hdeep⟩ := hh.below hp hslot hfr
    have hnext : (((s.put f (fr.ended c)).destroy fr.tasks.reduceOption).put p
        { frp with status := .joined i k }).frames f = some (fr.ended c) :=
      (Function.update_of_ne hfp ..).trans hnow
    have hlocal : Local s (((s.put f (fr.ended c)).destroy fr.tasks.reduceOption).put p
        { frp with status := .joined i k }) p frp := by
      intro x fx hx hne hfar
      rw [put_frames, Function.update_of_ne hne]
      refine local_destroy local_put hdown x fx hx ?_ ?_
      · rintro rfl
        rw [Option.some.inj (hx.symm.trans hfr)] at hfar
        rcases hfar with hlow | hother
        · omega
        · exact hother hsame
      · rw [hsame]
        refine hfar.imp_left ?_
        intro hlow
        omega
    have hcell : (((s.put f (fr.ended c)).destroy fr.tasks.reduceOption).put p
        { frp with status := .joined i k }).env unset frp =
          (s.env unset frp).set i (.value ((fr.container.call c).result unset)) := by
      refine env_eq_set hslot (cell_done hnext rfl) ?_
      intro j h hj htask
      obtain ⟨ch, hch, hfits⟩ := hh.fits p frp j h hp htask
      rw [hch]
      refine (Function.update_of_ne (hh.owner_ne hp htask) ..).trans ?_
      refine local_destroy local_put hdown h ch hch ?_ (.inl ?_)
      · rintro rfl
        exact hj (hh.unique p j p i h ⟨frp, hp, htask⟩ ⟨frp, hp, hslot⟩).2
      · rw [hfits.depth]
        omega
    refine ⟨p, frp, _, hp, hsame.symm, ?_, hlocal, .call hp hjoining hslot hmeans, ?_⟩
    · rw [hjoining]
      rfl
    · refine .own (Function.update_self ..) ?_
      unfold State.tree
      simp only [hslot, hnext]
      show _ = some (Tree.later ((k _).pace ((s.env unset frp).set i (.value _))))
      rw [← hcell]
      rfl

/-- A step of a coroutine takes one silent step off what some frame of its root
means. -/
theorem run_moves (hh : Heap s) (hfr : s.frames f = some fr) (hs : RunCase unset s f g fr s') :
    ∃ x fx t, s.frames x = some fx ∧ fx.root = fr.root ∧ fx.status.idle = false ∧
      Local s s' x fx ∧ Means unset s x (.later t) ∧ Means unset s' x t := by
  cases hs with
  | finish hstatus hb hfinish => exact finish_moves hh hfr hstatus hb hfinish
  | ask hstatus =>
    refine ⟨f, fr, _, hfr, rfl, by rw [hstatus]; rfl, local_put, .running hfr hstatus, ?_⟩
    rw [← hh.env_put hfr]
    exact .own (Function.update_self ..) rfl
  | @make child rest hstatus hfree =>
    have hgf : g ≠ f := by
      rintro rfl
      rw [hfree] at hfr
      cases hfr
    have hlocal : Local s ((s.put f { fr with
        status := .running rest
        tasks := fr.tasks ++ [some g] }).put g (newFrame fr.root (fr.depth + 1) child)) f fr := by
      apply local_task
      intro ch hch
      rw [hfree] at hch
      cases hch
    refine ⟨f, fr, _, hfr, rfl, by rw [hstatus]; rfl, hlocal, .running hfr hstatus, ?_⟩
    have hold : ((s.put f { fr with
        status := .running rest
        tasks := fr.tasks ++ [some g] }).put g (newFrame fr.root (fr.depth + 1) child)).env unset
          fr = s.env unset fr := by
      apply env_congr
      intro j h hslot
      have hhg : h ≠ g := by
        rintro rfl
        exact hh.slot_ne_free hfree hfr hslot
      rw [put_frames, put_frames, Function.update_of_ne hhg,
        Function.update_of_ne (hh.owner_ne hfr hslot)]
    refine .own ((Function.update_of_ne hgf.symm ..).trans (Function.update_self ..)) ?_
    unfold State.tree
    rw [env_concat fr rfl, hold, cell_created (Function.update_self ..) rfl]
  | @ready i k h child hstatus htask hchild hdone =>
    have hcell := env_slot unset s htask
    rw [cell_done hchild hdone] at hcell
    have hbefore : Body.pace (.join i k) (s.env unset fr) =
        .later (.later ((k (child.container.result unset)).pace (s.env unset fr))) := by
      simp only [Body.pace, hcell]
    have hmeans : Means unset s f (Body.pace (.join i k) (s.env unset fr)) := .running hfr hstatus
    rw [hbefore] at hmeans
    refine ⟨f, fr, _, hfr, rfl, by rw [hstatus]; rfl, local_put, hmeans, ?_⟩
    refine .own (Function.update_self ..) ?_
    unfold State.tree
    simp only [htask]
    rw [put_frames, Function.update_of_ne (hh.owner_ne hfr htask), hchild, ← hh.env_put hfr]
    rfl
  | @join i k h child b hstatus htask hchild hcreated =>
    have hcell := env_slot unset s htask
    rw [cell_created hchild hcreated] at hcell
    have hbefore : Body.pace (.join i k) (s.env unset fr) =
        .later ((b.pace []).bind (s.rest unset fr i k)) := by
      simp only [Body.pace, hcell]
      rfl
    have hmeans : Means unset s f (Body.pace (.join i k) (s.env unset fr)) := .running hfr hstatus
    rw [hbefore] at hmeans
    have hhf := hh.owner_ne hfr htask
    have hlocal : Local s ((s.put f { fr with status := .joining i k }).put h { child with
        status := .running b
        continuation := some f }) f fr :=
      local_task fun ch hch => hh.below hfr htask hch
    refine ⟨f, fr, _, hfr, rfl, by rw [hstatus]; rfl, hlocal, hmeans, ?_⟩
    have hrest : State.rest unset ((s.put f { fr with status := .joining i k }).put h { child with
        status := .running b
        continuation := some f }) fr i k = s.rest unset fr i k := by
      funext o
      unfold State.rest
      rw [env_set_congr]
      intro j y hj hslot
      have hyh : y ≠ h := by
        rintro rfl
        exact hj (hh.unique f j f i y ⟨fr, hfr, hslot⟩ ⟨fr, hfr, htask⟩).2
      rw [put_frames, put_frames, Function.update_of_ne hyh,
        Function.update_of_ne (hh.owner_ne hfr hslot)]
    have hnil : child.tasks = [] := (hh.sound h child hchild).bare (by rw [hcreated]; rfl)
    rw [← hrest]
    show Means unset _ f ((b.pace []).bind
      (State.rest unset _ { fr with status := .joining i k } i k))
    refine .call ((Function.update_of_ne hhf.symm ..).trans (Function.update_self ..)) rfl htask ?_
    refine .own (Function.update_self ..) ?_
    unfold State.tree State.env
    simp only [hnil, List.map_nil]
  | @drop i rest h hstatus htask =>
    have hlt : i < (s.env unset fr).length := by
      unfold State.env
      rw [List.length_map]
      exact (List.getElem?_eq_some_iff.mp htask).1
    have hbefore : Body.pace (.drop i rest) (s.env unset fr) =
        .later (rest.pace ((s.env unset fr).set i .gone)) := by
      simp only [Body.pace, if_pos hlt]
    have hmeans : Means unset s f (Body.pace (.drop i rest) (s.env unset fr)) :=
      .running hfr hstatus
    rw [hbefore] at hmeans
    have hout : f ∉ h.toList := by
      rw [Option.mem_toList]
      rintro rfl
      exact hh.owner_ne hfr htask rfl
    have hlocal : Local s ((s.put f { fr with
        status := .running rest
        tasks := fr.tasks.set i none }).destroy h.toList) f fr := by
      refine local_destroy local_put ?_
      intro g hg ch hch
      obtain rfl := Option.mem_toList.mp hg
      exact hh.below hfr htask hch
    refine ⟨f, fr, _, hfr, rfl, by rw [hstatus]; rfl, hlocal, hmeans, ?_⟩
    refine .own (destroy_frames.mpr ⟨hout, Function.update_self ..⟩) ?_
    unfold State.tree
    rw [env_gone fr rfl, env_set_congr]
    intro j y hj hslot
    obtain ⟨ch, hch, _⟩ := hh.fits f fr j y hfr hslot
    rw [hch]
    refine destroy_frames.mpr ⟨?_, (Function.update_of_ne (hh.owner_ne hfr hslot) ..).trans hch⟩
    rw [Option.mem_toList]
    rintro rfl
    exact hj (hh.unique f j f i y ⟨fr, hfr, hslot⟩ ⟨fr, hfr, htask⟩).2
  | @joined i k h child hstatus htask hchild =>
    have hbefore : s.tree unset fr =
        some (.later ((k (child.container.result unset)).pace (s.env unset fr))) := by
      simp only [State.tree, hstatus, htask, hchild, Option.map_some]
    refine ⟨f, fr, _, hfr, rfl, by rw [hstatus]; rfl, local_put, .own hfr hbefore, ?_⟩
    rw [← hh.env_put hfr]
    exact .own (Function.update_self ..) rfl

/-- A step of a coroutine takes one silent step off what its root means. -/
theorem run_means (hh : Heap s) (hfr : s.frames f = some fr) (hs : RunCase unset s f g fr s') :
    ∃ u x fx, Means unset s fr.root (.later u) ∧ Means unset s' fr.root u ∧
      s.frames x = some fx ∧ fx.root = fr.root ∧ Local s s' x fx := by
  obtain ⟨x, fx, t, hx, hroot, hbusy, hlocal, hm, hm'⟩ := run_moves hh hfr hs
  obtain ⟨u, u', hu, hu', heq⟩ := hm.climb (R := fun t t' => t = .later t')
    (fun t t' K ht => by rw [ht, Tree.later_bind]) hh hx (.inr hbusy) hlocal hm' rfl
  exact ⟨u', x, fx, hroot ▸ heq ▸ hu, hroot ▸ hu', hx, hroot, hlocal⟩

end SheepCoro.Calls
