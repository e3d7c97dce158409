import SheepCoro.Calls.Agree
import Mathlib.Data.Fintype.EquivFin

/-!
# A resume comes back

A body means a tree, and every path in it is finite, so a root task that is
resumed comes to its end or to a request after finitely many steps of its own
coroutines, whatever the others are about.  The frame that goes on is the one
at the end of the chain of calls (`Means.leaf`), and there is always something
that it can do (`run_enabled`), unless what it does has no meaning.
-/

namespace SheepCoro.Calls

open Lib

open Container (Call Outcome Variant)

variable {T E Q A φ : Type} [DecidableEq φ] {unset : E} {s s' : State T E Q A φ}
  {a : Label T E Q A φ} {f g h r : φ} {fr ch : Frame T E Q A φ} {i : Nat}
  {t t' : Tree Q A (Outcome T E)}

/-- A body takes a step first, or has no meaning. -/
theorem pace_cases (b : Body T E Q A) (env : List (Cell T E Q A)) :
    (∃ t, b.pace env = .later t) ∨ b.pace env = .stuck := by
  cases b with
  | ret value => exact .inl ⟨_, rfl⟩
  | throw e => exact .inl ⟨_, rfl⟩
  | ask q k => exact .inl ⟨_, rfl⟩
  | make child rest => exact .inl ⟨_, rfl⟩
  | join i k =>
    unfold Body.pace
    split
    · exact .inl ⟨_, rfl⟩
    · exact .inl ⟨_, rfl⟩
    · exact .inr rfl
    · exact .inr rfl
  | drop i rest =>
    unfold Body.pace
    split_ifs
    · exact .inl ⟨_, rfl⟩
    · exact .inr rfl

section

omit [DecidableEq φ]

/-- The tree of a frame by its status. -/
theorem tree_cases (htree : s.tree unset fr = some t) :
    (∃ u, t = .later u) ∨ t = .stuck ∨ (∃ q k k', fr.status = .asking q k ∧ t = .ask q k') ∨
      fr.status = .done ∧ t = .done (fr.container.result unset) := by
  unfold State.tree at htree
  split at htree
  · next b hstatus =>
    cases htree
    exact (pace_cases b []).imp_right .inl
  · next b hstatus =>
    cases htree
    exact (pace_cases b (s.env unset fr)).imp_right .inl
  · cases htree
  · split at htree
    · next h htask =>
      obtain ⟨ch, _, rfl⟩ := Option.map_eq_some_iff.mp htree
      exact .inl ⟨_, rfl⟩
    · cases htree
  · next q k hstatus =>
    cases htree
    exact .inr (.inr (.inl ⟨q, k, _, hstatus, rfl⟩))
  · next hstatus =>
    cases htree
    exact .inr (.inr (.inr ⟨hstatus, rfl⟩))

theorem tree_done {o : Outcome T E} (htree : s.tree unset fr = some (.done o)) :
    fr.status = .done ∧ fr.container.result unset = o := by
  rcases tree_cases htree with ⟨u, hu⟩ | hu | ⟨q, k, k', _, hu⟩ | ⟨hstatus, hu⟩
  · cases hu
  · cases hu
  · cases hu
  · cases hu
    exact ⟨hstatus, rfl⟩

theorem tree_ask {q : Q} {k : A → Tree Q A (Outcome T E)}
    (htree : s.tree unset fr = some (.ask q k)) : ∃ k, fr.status = .asking q k := by
  rcases tree_cases htree with ⟨u, hu⟩ | hu | ⟨q, k, k', hstatus, hu⟩ | ⟨_, hu⟩
  · cases hu
  · cases hu
  · cases hu
    exact ⟨k, hstatus⟩
  · cases hu

/-- The frame at the end of a chain of calls, and what it shows of the meaning
of the whole. -/
structure Leaf (unset : E) (s : State T E Q A φ) (f : φ) (fr : Frame T E Q A φ)
    (t : Tree Q A (Outcome T E)) (g : φ) (ch : Frame T E Q A φ) (t' : Tree Q A (Outcome T E)) :
    Prop where
  frame : s.frames g = some ch
  root : ch.root = fr.root
  tree : s.tree unset ch = some t'
  later : ∀ u, t = .later u → ∃ v, t' = .later v
  ask : ∀ q k, t = .ask q k → ∃ k, t' = .ask q k
  done : ∀ o, t = .done o → g = f ∧ t' = .done o
  busy : g = f ∨ ch.status.idle = false

theorem Means.leaf (hm : Means unset s f t) (hh : Heap s) (hfr : s.frames f = some fr) :
    ∃ g ch t', Leaf unset s f fr t g ch t' := by
  induction hm generalizing fr with
  | @own f fx t hx htree =>
    obtain rfl := Option.some.inj (hx.symm.trans hfr)
    exact ⟨f, fx, t, hx, rfl, htree, fun u hu => ⟨u, hu⟩, fun q k hk => ⟨k, hk⟩,
      fun o ho => ⟨rfl, ho⟩, .inl rfl⟩
  | @call f g fx i k t hx hstatus htask hcallee ih =>
    obtain rfl := Option.some.inj (hx.symm.trans hfr)
    obtain ⟨ch, hch, hfits⟩ := hh.fits f fx i g hx htask
    have hbusy : ch.status.idle = false := hfits.busy.mp (by rw [hstatus]; rfl)
    obtain ⟨x, cx, t', hleaf⟩ := ih hch
    refine ⟨x, cx, t', hleaf.frame, hleaf.root.trans hfits.root, hleaf.tree, ?_, ?_, ?_, ?_⟩
    · intro u hu
      cases t with
      | done o =>
        -- A task that is awaited is not done.
        obtain ⟨rfl, rfl⟩ := hleaf.done o rfl
        obtain rfl := Option.some.inj (hleaf.frame.symm.trans hch)
        rw [(tree_done hleaf.tree).1] at hbusy
        cases hbusy
      | ask q k => cases hu
      | later t => exact hleaf.later t rfl
      | stuck => cases hu
    · intro q k hk
      cases t with
      | done o => cases hk
      | ask q' k' =>
        cases hk
        exact hleaf.ask q k' rfl
      | later t => cases hk
      | stuck => cases hk
    · intro o ho
      cases t with
      | done o => cases ho
      | ask q k => cases ho
      | later t => cases ho
      | stuck => cases ho
    · refine .inr (hleaf.busy.elim ?_ id)
      rintro rfl
      rw [Option.some.inj (hleaf.frame.symm.trans hch)]
      exact hbusy

end

/-! ## A step that can be taken -/

theorem finish_enabled {b : Body T E Q A} (hh : Heap s) (hfr : s.frames f = some fr)
    (hstatus : fr.status = .running b) (c : Call T E) : ∃ s', s.finish f fr c = some s' := by
  unfold State.finish
  by_cases hroot : f = fr.root
  · rw [(hh.sound f fr hfr).last hroot]
    exact ⟨_, rfl⟩
  · obtain ⟨p, frp, i, hp, hslot, hjoins, hcont, _, _⟩ :=
      hh.caller hfr (by rw [hstatus]; rfl) hroot
    obtain ⟨k, hjoining⟩ := joins_eq hjoins
    have hkeep : ((s.put f (fr.ended c)).destroy fr.tasks.reduceOption).frames p = some frp :=
      hh.caller_kept hfr hstatus hp hslot hjoining
    rw [hcont]
    unfold State.transfer
    simp only [hkeep, hjoining]
    exact ⟨_, rfl⟩

omit [DecidableEq φ] in
/-- A task that can be awaited is not null, and was not started or is done. -/
theorem pace_join {k : Outcome T E → Body T E Q A}
    (hpace : Body.pace (.join i k) (s.env unset fr) = .later t) :
    ∃ h ch, fr.tasks[i]? = some (some h) ∧ s.frames h = some ch ∧
      (ch.status = .done ∨ ∃ b, ch.status = .created b) := by
  unfold Body.pace State.env at hpace
  rw [List.getElem?_map] at hpace
  cases htask : fr.tasks[i]? with
  | none =>
    rw [htask] at hpace
    cases hpace
  | some c =>
    cases c with
    | none =>
      rw [htask] at hpace
      cases hpace
    | some h =>
      cases hch : s.frames h with
      | none =>
        simp only [htask, Option.map_some, State.cell, hch] at hpace
        cases hpace
      | some ch =>
        refine ⟨h, ch, rfl, hch, ?_⟩
        simp only [htask, Option.map_some, State.cell, hch] at hpace
        cases hstatus : ch.status with
        | created b => exact .inr ⟨b, rfl⟩
        | done => exact .inl rfl
        | _ =>
          simp only [hstatus] at hpace
          cases hpace

/-- A coroutine that runs can take its next step, when there is memory for a
frame and what it does has a meaning. -/
theorem run_enabled (hh : Heap s) (hfr : s.frames f = some fr) (hbusy : fr.status.idle = false)
    (htree : s.tree unset fr = some (.later t)) (hfree : s.frames g = none) :
    ∃ s', s.run unset f g fr = some s' := by
  unfold State.tree at htree
  unfold State.run
  split at htree
  · next b hstatus =>
    rw [hstatus] at hbusy
    cases hbusy
  · next b hstatus =>
    rw [hstatus]
    cases b with
    | ret value => exact finish_enabled hh hfr hstatus _
    | throw e => exact finish_enabled hh hfr hstatus _
    | ask q k => exact ⟨_, rfl⟩
    | make child rest =>
      simp only [hfree]
      exact ⟨_, rfl⟩
    | join i k =>
      obtain ⟨h, ch, htask, hch, hdone | ⟨b, hcreated⟩⟩ := pace_join (Option.some.inj htree)
      · simp only [htask, hch, hdone]
        exact ⟨_, rfl⟩
      · simp only [htask, hch, hcreated]
        exact ⟨_, rfl⟩
    | drop i rest =>
      have hlt : i < fr.tasks.length := by
        by_contra hge
        have hlength : (s.env unset fr).length = fr.tasks.length := List.length_map ..
        rw [Body.pace, hlength, if_neg hge] at htree
        cases htree
      simp only [List.getElem?_eq_getElem hlt]
      exact ⟨_, rfl⟩
  · cases htree
  · next i k hstatus =>
    rw [hstatus]
    split at htree
    · next h htask =>
      obtain ⟨ch, hch, _⟩ := Option.map_eq_some_iff.mp htree
      simp only [htask, hch]
      exact ⟨_, rfl⟩
    · cases htree
  · cases htree
  · cases htree

/-! ## Memory -/

/-- There are only so many frames. -/
def Bounded (s : State T E Q A φ) : Prop :=
  ∃ xs : List φ, ∀ x, s.frames x ≠ none → x ∈ xs

theorem Bounded.put (hb : Bounded s) : Bounded (s.put f fr) := by
  obtain ⟨xs, hxs⟩ := hb
  refine ⟨f :: xs, ?_⟩
  intro x hx
  by_cases hxf : x = f
  · exact List.mem_cons.mpr (.inl hxf)
  · rw [put_frames, Function.update_of_ne hxf] at hx
    exact List.mem_cons_of_mem f (hxs x hx)

theorem Bounded.destroy (hb : Bounded s) (gs : List φ) : Bounded (s.destroy gs) := by
  obtain ⟨xs, hxs⟩ := hb
  refine ⟨xs, ?_⟩
  intro x hx
  obtain ⟨fx, hfx⟩ := Option.ne_none_iff_exists'.mp hx
  apply hxs x
  rw [(destroy_frames.mp hfx).2]
  exact Option.some_ne_none _

theorem Bounded.transfer {p : Option φ} (hb : Bounded s) (hs : s.transfer p = some s') :
    Bounded s' := by
  unfold State.transfer at hs
  split at hs
  · exact Option.some.inj hs ▸ hb
  · split at hs
    · split at hs
      · exact Option.some.inj hs ▸ hb.put
      · cases hs
    · cases hs

theorem bounded_step (hb : Bounded s) (hs : step unset s a = some s') : Bounded s' := by
  cases step_cases hs with
  | spawn => exact hb.put
  | start => exact hb.put
  | run hfr hrun =>
    cases hrun with
    | finish hstatus _ hfinish => exact (hb.put.destroy _).transfer hfinish
    | ask => exact hb.put
    | make => exact hb.put.put
    | ready => exact hb.put
    | join => exact hb.put.put
    | drop => exact hb.put.destroy _
    | joined => exact hb.put
  | answer => exact hb.put
  | clean => exact hb.destroy _

theorem bounded_of_reachable (hr : (machine unset).Reachable s) : Bounded s := by
  refine hr.invariant (I := Bounded) ?_ fun _ _ _ _ hb hs => bounded_step hb hs
  intro s h0
  rw [show s = newState from h0]
  exact ⟨[], fun x hx => absurd rfl hx⟩

theorem Bounded.fresh [Infinite φ] (hb : Bounded s) : ∃ g, s.frames g = none := by
  obtain ⟨xs, hxs⟩ := hb
  obtain ⟨g, hg⟩ := Infinite.exists_notMem_finset xs.toFinset
  refine ⟨g, ?_⟩
  by_contra hne
  exact hg (List.mem_toFinset.mpr (hxs g hne))

/-! ## Running a root -/

/-- The frames of `r` take some steps, of which nothing is seen. -/
def Quiet (unset : E) (s : State T E Q A φ) (r : φ) (s' : State T E Q A φ) : Prop :=
  ∃ bs, (machine unset).run s bs = some s' ∧ (machine unset).shown visible s bs = [] ∧
    ∀ x fx, s.frames x = some fx → fx.root ≠ r → s'.frames x = some fx

/-- The root is done with this outcome, or one of its coroutines waits for the
answer to this request. -/
def Settled (unset : E) (s : State T E Q A φ) (r : φ) : Tree Q A (Outcome T E) → Prop
  | .done o => ∃ fr, s.frames r = some fr ∧ fr.status = .done ∧ fr.container.result unset = o
  | .ask q _ => ∃ f fr k, s.frames f = some fr ∧ fr.root = r ∧ fr.status = .asking q k
  | .later _ => False
  -- What has no meaning has no result.
  | .stuck => True

theorem Quiet.refl (unset : E) (s : State T E Q A φ) (r : φ) : Quiet unset s r s :=
  ⟨[], rfl, rfl, fun _ _ hx _ => hx⟩

theorem Quiet.next {u : State T E Q A φ} (hs : (machine unset).step s a = some u)
    (hsee : visible s a = [])
    (hfar : ∀ x fx, s.frames x = some fx → fx.root ≠ r → u.frames x = some fx)
    (hq : Quiet unset u r s') : Quiet unset s r s' := by
  obtain ⟨bs, hrun, hshown, hrest⟩ := hq
  refine ⟨a :: bs, Machine.run_cons.mpr ⟨u, hs, hrun⟩, ?_, ?_⟩
  · simp only [Machine.shown, hs, hsee, hshown, List.append_nil]
  · exact fun x fx hx hne => hrest x fx (hfar x fx hx hne) hne

/-- A root that was resumed and has not come to rest can take a step. -/
theorem root_step (hh : Heap s) (hfree : s.frames g = none) (hr : IsRoot s r)
    (hm : Means unset s r (.later t)) (hstarted : ∀ fr b, s.frames r = some fr →
      fr.status ≠ .created b) :
    ∃ f s', (machine unset).step s (.run f g) = some s' ∧ Means unset s' r t ∧ IsRoot s' r ∧
      ∀ x fx, s.frames x = some fx → fx.root ≠ r → s'.frames x = some fx := by
  obtain ⟨fr, hfr, hroot⟩ := hr
  obtain ⟨f, ch, t', hleaf⟩ := hm.leaf hh hfr
  obtain ⟨v, rfl⟩ := hleaf.later t rfl
  have hbusy : ch.status.idle = false := by
    rcases hleaf.busy with rfl | hbusy
    · cases hstatus : ch.status with
      | created b => exact absurd hstatus (hstarted ch b hleaf.frame)
      | done =>
        have htree := hleaf.tree
        rw [State.tree, hstatus] at htree
        cases htree
      | _ => rfl
    · exact hbusy
  obtain ⟨s', hs⟩ := run_enabled hh hleaf.frame hbusy hleaf.tree hfree
  have hcase := run_cases hs
  obtain ⟨u, x, fx, hu, hu', hx, hxroot, hlocal⟩ := run_means hh hleaf.frame hcase
  rw [hleaf.root.trans hroot] at hu hu' hxroot
  cases hu.unique hm
  refine ⟨f, s', ?_, hu', (run_isRoot hh hleaf.frame hcase).mpr ⟨fr, hfr, hroot⟩, ?_⟩
  · simp only [machine, step, hleaf.frame]
    exact hs
  · exact fun y fy hy hne => hlocal.away hx (hxroot ▸ hne) y fy hy rfl

/-- The first resume of a root. -/
theorem start_means {b : Body T E Q A} (hh : Heap s) (hfr : s.frames r = some fr)
    (hstatus : fr.status = .created b) (hm : Means unset s r t) :
    Means unset (s.put r { fr with status := .running b }) r t := by
  have hown : Means unset s r (b.pace []) := .own hfr (by rw [State.tree, hstatus])
  rw [hm.unique hown]
  refine .own (Function.update_self ..) ?_
  unfold State.tree State.env
  simp only [(hh.sound r fr hfr).bare (by rw [hstatus]; rfl), List.map_nil]

/-- The coroutines of a root go on until it is done or waits for an answer.
The induction is on what the root means. -/
theorem settle [Infinite φ] (hreach : (machine unset).Reachable s) (hr : IsRoot s r)
    (hm : Means unset s r t) : ∃ s', Quiet unset s r s' ∧ Settled unset s' r t.erase := by
  induction t generalizing s with
  | done o =>
    obtain ⟨fr, hfr, hroot⟩ := hr
    obtain ⟨f, ch, t', hleaf⟩ := hm.leaf (heap_of_reachable hreach) hfr
    obtain ⟨rfl, rfl⟩ := hleaf.done o rfl
    obtain ⟨hstatus, hresult⟩ := tree_done hleaf.tree
    exact ⟨s, .refl unset s f, ch, hleaf.frame, hstatus, hresult⟩
  | ask q k =>
    obtain ⟨fr, hfr, hroot⟩ := hr
    obtain ⟨f, ch, t', hleaf⟩ := hm.leaf (heap_of_reachable hreach) hfr
    obtain ⟨k', rfl⟩ := hleaf.ask q k rfl
    obtain ⟨k'', hstatus⟩ := tree_ask hleaf.tree
    exact ⟨s, .refl unset s r, f, ch, k'', hleaf.frame, hleaf.root.trans hroot, hstatus⟩
  | stuck => exact ⟨s, .refl unset s r, trivial⟩
  | later t ih =>
    -- One step of the machine for one silent step of the tree.
    have hgo : ∀ {u}, (machine unset).Reachable u → IsRoot u r → Means unset u r (.later t) →
        (∀ fr b, u.frames r = some fr → fr.status ≠ .created b) →
        ∃ s', Quiet unset u r s' ∧ Settled unset s' r t.erase := by
      intro u hu hru hmu hstarted
      obtain ⟨g, hfree⟩ := (bounded_of_reachable hu).fresh
      obtain ⟨f, v, hs, hmv, hrv, hfar⟩ := root_step (heap_of_reachable hu) hfree hru hmu hstarted
      obtain ⟨s', hq, hsettled⟩ := ih (hu.next hs) hrv hmv
      exact ⟨s', hq.next hs rfl hfar, hsettled⟩
    by_cases hcreated : ∃ fr b, s.frames r = some fr ∧ fr.status = .created b
    · obtain ⟨fr, b, hfr, hstatus⟩ := hcreated
      have hroot : fr.root = r := by
        obtain ⟨fr', hfr', hroot⟩ := hr
        rw [Option.some.inj (hfr.symm.trans hfr')]
        exact hroot
      have hs : (machine unset).step s (.start r) =
          some (s.put r { fr with status := .running b }) := by
        simp only [machine, step, hfr, hstatus, if_pos hroot]
      have hm' := start_means (heap_of_reachable hreach) hfr hstatus hm
      have hr' : IsRoot (s.put r { fr with status := .running b }) r :=
        ⟨_, Function.update_self .., hroot⟩
      obtain ⟨s', hq, hsettled⟩ := hgo (hreach.next hs) hr' hm' (by
        intro fr' b' hfr' hstatus'
        rw [put_frames, Function.update_self] at hfr'
        cases hfr'
        cases hstatus')
      refine ⟨s', hq.next hs rfl ?_, hsettled⟩
      exact fun x fx hx hne => local_put.away hfr (hroot.symm ▸ hne) x fx hx rfl
    · refine hgo hreach hr hm ?_
      intro fr b hfr hstatus
      exact hcreated ⟨fr, b, hfr, hstatus⟩

/-- After every run each root can be run, by steps of its own coroutines only
and as if nothing else was there, until it shows what the direct machine has
for it: the outcome, or the next request. -/
theorem calls_return [Infinite φ] {as : List (Label T E Q A φ)}
    {d : φ → Option (Tree Q A (Outcome T E))}
    (hrun : (machine unset).run newState as = some s)
    (hd : direct.run (fun _ => none) ((machine unset).shown visible newState as) = some d)
    (hr : IsRoot s r) :
    ∃ s' t, Quiet unset s r s' ∧ d r = some t ∧ Settled unset s' r t := by
  have hinit : (machine unset).Reachable (newState : State T E Q A φ) := .init rfl
  obtain ⟨d', hd', ha⟩ := agrees_of_run hrun
  obtain rfl : d' = d := Option.some.inj (hd'.symm.trans hd)
  obtain ⟨t, hm, hdr⟩ := ha.means r hr
  obtain ⟨s', hq, hsettled⟩ := settle (hinit.run hrun) hr hm
  exact ⟨s', t.erase, hq, hdr, hsettled⟩

theorem calls_return_callRun :
    ∃ s s' t, ∃ d : Nat → Option (Tree Unit Nat (Outcome Nat String)),
    (machine "unset").run newState (callRun.take 4) = some s ∧ Quiet "unset" s 0 s' ∧
      d 0 = some t ∧ Settled "unset" s' 0 t := by
  have htop : (((machine "unset").run newState (callRun.take 4)).bind fun s =>
      (s.frames 0).map Frame.root) = some 0 := by decide
  obtain ⟨s, hs, htop⟩ := Option.bind_eq_some_iff.mp htop
  obtain ⟨fr, hfr, hroot⟩ := Option.map_eq_some_iff.mp htop
  obtain ⟨d, hd, _⟩ := agrees_of_run hs
  obtain ⟨s', t, hq, hdr, hsettled⟩ := calls_return hs hd ⟨fr, hfr, hroot⟩
  exact ⟨s, s', t, d, hs, hq, hdr, hsettled⟩

end SheepCoro.Calls
