import SheepCoro.Lib.Machine
import Mathlib.Data.List.Induction

/-!
# Histories of runs

A run of a machine is a list of labels.  A history is a value that is updated
beside the steps of a run and never read by them: the requests that were made
so far, the set of threads that have been notified, a count.
`Machine.history` folds an update along a run, and `history_invariant` carries
a relation between state and history over the whole run.  `Machine.shown` is
the list of what the steps of a run show, and `shown_conserve` and
`shown_suffix` are the rules for a queue that the run appends to and takes
from.  `Machine.Along` says that every step of a run has a property.

`Reachable.simulate` is the rule for two machines of which one follows the
other, and `run_until` the rule for "it stays so until": a property that a step can
only end in a given way holds at the end of a run, or the run has come to such
a step.
-/

namespace Lib

universe u v w

namespace Machine

variable {σ : Type u} {α : Type v} {β γ : Type w} (M : Machine σ α)

/-- The history of a run from `s`, where `f` says what a step adds to it. -/
def history (f : σ → α → γ → γ) : σ → γ → List α → γ
  | _, g, [] => g
  | s, g, a :: as =>
    match M.step s a with
    | some s' => history f s' (f s a g) as
    | none => g

/-- What the steps of a run from `s` show, one after the other. -/
def shown (f : σ → α → List β) : σ → List α → List β
  | _, [] => []
  | s, a :: as =>
    match M.step s a with
    | some s' => f s a ++ shown f s' as
    | none => []

/-- Every step of a run from `s` meets `P`. -/
def Along (P : σ → α → σ → Prop) : σ → List α → Prop
  | _, [] => True
  | s, a :: as => ∀ s', M.step s a = some s' → P s a s' ∧ Along P s' as

variable {M}

theorem run_cons {s t : σ} {a : α} {as : List α} :
    M.run s (a :: as) = some t ↔ ∃ u, M.step s a = some u ∧ M.run u as = some t := by
  show (if True then (M.step s a).bind fun u => M.run u as else none) = some t ↔ _
  rw [if_pos trivial]
  exact Option.bind_eq_some_iff

theorem Reachable.next {s t : σ} {a : α} (h : M.Reachable s) (hs : M.step s a = some t) :
    M.Reachable t :=
  ReachableUnder.step h trivial hs

theorem Reachable.run {s t : σ} {as : List α} (h : M.Reachable s)
    (hrun : M.run s as = some t) : M.Reachable t :=
  ReachableUnder.run h hrun

theorem along_cons {P : σ → α → σ → Prop} {s u : σ} {a : α} {as : List α}
    (hs : M.step s a = some u) : M.Along P s (a :: as) ↔ P s a u ∧ M.Along P u as := by
  constructor
  · intro h
    exact h u hs
  · intro h u' hs'
    cases hs.symm.trans hs'
    exact h

theorem Along.imp {P Q : σ → α → σ → Prop}
    (hstep : ∀ s a s', M.step s a = some s' → P s a s' → Q s a s') {s : σ} {as : List α}
    (h : M.Along P s as) : M.Along Q s as := by
  induction as generalizing s with
  | nil => exact trivial
  | cons a as ih =>
    intro s' hs
    obtain ⟨hfirst, hlater⟩ := h s' hs
    exact ⟨hstep s a s' hs hfirst, ih hlater⟩

theorem run_concat {s t : σ} {a : α} {as : List α} :
    M.run s (as ++ [a]) = some t ↔ ∃ u, M.run s as = some u ∧ M.step u a = some t := by
  induction as generalizing s with
  | nil =>
    rw [List.nil_append, run_cons]
    constructor
    · rintro ⟨u, hu, hrest⟩
      exact ⟨s, rfl, Option.some.inj hrest ▸ hu⟩
    · rintro ⟨u, hu, hstep⟩
      exact ⟨t, Option.some.inj hu ▸ hstep, rfl⟩
  | cons b as ih =>
    rw [List.cons_append, run_cons]
    constructor
    · rintro ⟨v, hv, hrest⟩
      obtain ⟨u, hu, hstep⟩ := ih.mp hrest
      exact ⟨u, run_cons.mpr ⟨v, hv, hu⟩, hstep⟩
    · rintro ⟨u, hu, hstep⟩
      obtain ⟨v, hv, hrest⟩ := run_cons.mp hu
      exact ⟨v, hv, ih.mpr ⟨u, hrest, hstep⟩⟩

theorem run_append {s t : σ} {as bs : List α} :
    M.run s (as ++ bs) = some t ↔ ∃ u, M.run s as = some u ∧ M.run u bs = some t := by
  induction as generalizing s with
  | nil =>
    constructor
    · intro h
      exact ⟨s, rfl, h⟩
    · rintro ⟨u, ⟨⟩, h⟩
      exact h
  | cons a as ih =>
    rw [List.cons_append, run_cons]
    constructor
    · rintro ⟨v, hv, hrest⟩
      obtain ⟨u, hu, hlater⟩ := ih.mp hrest
      exact ⟨u, run_cons.mpr ⟨v, hv, hu⟩, hlater⟩
    · rintro ⟨u, hu, hlater⟩
      obtain ⟨v, hv, hrest⟩ := run_cons.mp hu
      exact ⟨v, hv, ih.mpr ⟨u, hrest, hlater⟩⟩

theorem shown_concat {f : σ → α → List β} {s t u : σ} {a : α} {as : List α}
    (hrun : M.run s as = some t) (hs : M.step t a = some u) :
    M.shown f s (as ++ [a]) = M.shown f s as ++ f t a := by
  induction as generalizing s with
  | nil =>
    cases hrun
    simp [shown, hs]
  | cons b as ih =>
    obtain ⟨v, hv, hrest⟩ := run_cons.mp hrun
    simp only [List.cons_append, shown, hv]
    rw [ih hrest, List.append_assoc]

/-- A run whose last step is cut off. -/
theorem Along.concat {P : σ → α → σ → Prop} {s t u : σ} {a : α} {as : List α}
    (h : M.Along P s (as ++ [a])) (hrun : M.run s as = some u) (hs : M.step u a = some t) :
    M.Along P s as ∧ P u a t := by
  induction as generalizing s with
  | nil =>
    cases hrun
    exact ⟨trivial, (h t hs).1⟩
  | cons b as ih =>
    obtain ⟨v, hv, hrest⟩ := run_cons.mp hrun
    obtain ⟨hfirst, hlater⟩ := h v hv
    obtain ⟨halong, hlast⟩ := ih hlater hrest
    refine ⟨fun v' hv' => ?_, hlast⟩
    cases hv.symm.trans hv'
    exact ⟨hfirst, halong⟩

/-- A run with one more step. -/
theorem Along.snoc {P : σ → α → σ → Prop} {s t u : σ} {a : α} {as : List α}
    (h : M.Along P s as) (hrun : M.run s as = some u) (hs : M.step u a = some t)
    (hlast : P u a t) : M.Along P s (as ++ [a]) := by
  induction as generalizing s with
  | nil =>
    cases hrun
    intro t' ht'
    cases hs.symm.trans ht'
    exact ⟨hlast, trivial⟩
  | cons b as ih =>
    obtain ⟨v, hv, hrest⟩ := run_cons.mp hrun
    intro v' hv'
    cases hv.symm.trans hv'
    obtain ⟨hfirst, hlater⟩ := h v hv
    exact ⟨hfirst, ih hlater hrest⟩

/-- The invariant rule for a state and the labels that led to it. -/
theorem path_invariant {I : List α → σ → Prop} {s₀ : σ} (hinit : I [] s₀)
    (hstep : ∀ as s a s', M.run s₀ as = some s → I as s → M.step s a = some s' →
      I (as ++ [a]) s')
    {as : List α} {s : σ} (hrun : M.run s₀ as = some s) : I as s := by
  induction as using List.reverseRecOn generalizing s with
  | nil => exact Option.some.inj hrun ▸ hinit
  | append_singleton as a ih =>
    obtain ⟨u, hu, hs⟩ := run_concat.mp hrun
    exact hstep as u a s hu (ih hu) hs

/-- The same for a run whose steps meet a condition. -/
theorem Along.path_invariant {P : σ → α → σ → Prop} {I : List α → σ → Prop} {s₀ : σ}
    (hinit : I [] s₀)
    (hstep : ∀ as s a s', M.run s₀ as = some s → I as s → P s a s' → M.step s a = some s' →
      I (as ++ [a]) s')
    {as : List α} {s : σ} (h : M.Along P s₀ as) (hrun : M.run s₀ as = some s) : I as s := by
  refine Machine.path_invariant (I := fun as s => M.Along P s₀ as → I as s)
    (fun _ => hinit) ?_ hrun h
  intro as s a s' hrun hI hs h
  obtain ⟨hearlier, hlast⟩ := h.concat hrun hs
  exact hstep as s a s' hrun (hI hearlier) hlast hs

/-- A property of the steps that follows from an invariant, in runs whose labels
are restricted. -/
theorem Along.of_invariant {P : σ → α → σ → Prop} {I : σ → Prop} {L : α → Prop}
    (hstep : ∀ s a s', I s → L a → M.step s a = some s' → P s a s' ∧ I s')
    {s : σ} {as : List α} (h : I s) (hL : ∀ a ∈ as, L a) : M.Along P s as := by
  induction as generalizing s with
  | nil => exact trivial
  | cons a as ih =>
    obtain ⟨hLa, hLas⟩ := List.forall_mem_cons.mp hL
    intro s' hs
    obtain ⟨hP, hI⟩ := hstep s a s' h hLa hs
    exact ⟨hP, ih hI hLas⟩

/-- An executed list of labels is a run whose steps meet the condition. -/
theorem Along.of_runUnder {guard : σ → α → Prop} [∀ s, DecidablePred (guard s)] {s t : σ}
    {as : List α} (hrun : M.runUnder guard s as = some t) :
    M.Along (fun s a _ => guard s a) s as ∧ M.run s as = some t := by
  induction as generalizing s with
  | nil => exact ⟨trivial, hrun⟩
  | cons a as ih =>
    simp only [runUnder, Option.ite_none_right_eq_some, Option.bind_eq_some_iff] at hrun
    obtain ⟨hg, u, hu, hrest⟩ := hrun
    obtain ⟨halong, hlater⟩ := ih hrest
    refine ⟨fun u' hu' => ?_, run_cons.mpr ⟨u, hu, hlater⟩⟩
    cases hu.symm.trans hu'
    exact ⟨hg, halong⟩

/-- The simulation rule.  When every step of `M` can be followed by `N`, every
state that `M` reaches is related to one that `N` reaches. -/
theorem Reachable.simulate {τ : Type u} {β : Type v} {N : Machine τ β} {R : σ → τ → Prop}
    (hinit : ∀ s, M.init s → ∃ t, N.Reachable t ∧ R s t)
    (hstep : ∀ s a s' t, M.Reachable s → N.Reachable t → R s t → M.step s a = some s' →
      ∃ t', N.Reachable t' ∧ R s' t')
    {s : σ} (h : M.Reachable s) : ∃ t, N.Reachable t ∧ R s t := by
  refine h.invariant (I := fun s => ∃ t, N.Reachable t ∧ R s t) hinit ?_
  intro s a s' hr hI hs
  obtain ⟨t, ht, hR⟩ := hI
  exact hstep s a s' t hr ht hR hs

/-- The invariant rule for a state and the history that led to it. -/
theorem history_invariant {f : σ → α → γ → γ} {I : σ → γ → Prop}
    (hstep : ∀ s a s' g, M.Reachable s → I s g → M.step s a = some s' → I s' (f s a g))
    {s t : σ} {g : γ} {as : List α} (hr : M.Reachable s) (h : I s g)
    (hrun : M.run s as = some t) : I t (M.history f s g as) := by
  induction as generalizing s g with
  | nil => exact Option.some.inj hrun ▸ h
  | cons a as ih =>
    obtain ⟨u, hu, hrest⟩ := run_cons.mp hrun
    simp only [history, hu]
    exact ih (hr.next hu) (hstep s a u g hr h hu) hrest

@[simp] theorem shown_nil (s : σ) (as : List α) :
    M.shown (fun _ _ => ([] : List β)) s as = [] := by
  induction as generalizing s with
  | nil => rfl
  | cons a as ih =>
    simp only [shown]
    cases M.step s a with
    | none => rfl
    | some u => exact ih u

/-- The rule for a queue.  What was in it and what arrives in a run is what
departs in the run followed by what is in it at the end.  The labels of the
run may be restricted. -/
theorem shown_conserve {P : α → Prop} {f g : σ → α → List β} {C : σ → List β → Prop}
    (hstep : ∀ s a s' xs, M.Reachable s → P a → C s xs → M.step s a = some s' →
      ∃ ys, C s' ys ∧ xs ++ f s a = g s a ++ ys)
    {s t : σ} {xs : List β} {as : List α} (hr : M.Reachable s) (hP : ∀ a ∈ as, P a)
    (h : C s xs) (hrun : M.run s as = some t) :
    ∃ ys, C t ys ∧ xs ++ M.shown f s as = M.shown g s as ++ ys := by
  induction as generalizing s xs with
  | nil =>
    refine ⟨xs, Option.some.inj hrun ▸ h, ?_⟩
    rw [shown, shown, List.append_nil, List.nil_append]
  | cons a as ih =>
    obtain ⟨u, hu, hrest⟩ := run_cons.mp hrun
    obtain ⟨hPa, hPas⟩ := List.forall_mem_cons.mp hP
    obtain ⟨ys, hys, hmove⟩ := hstep s a u xs hr hPa h hu
    obtain ⟨zs, hzs, hlater⟩ := ih (hr.next hu) hPas hys hrest
    refine ⟨zs, hzs, ?_⟩
    simp only [shown, hu]
    calc xs ++ (f s a ++ M.shown f u as)
        = g s a ++ (ys ++ M.shown f u as) := by
          rw [← List.append_assoc, hmove, List.append_assoc]
      _ = g s a ++ M.shown g u as ++ zs := by rw [hlater, List.append_assoc]

/-- The rule for a queue of which it does not matter what departs: it is
always the end of what has arrived. -/
theorem shown_suffix {f : σ → α → List β} {C : σ → List β → Prop}
    (hstep : ∀ s a s' xs, M.Reachable s → C s xs → M.step s a = some s' →
      ∃ ys, C s' ys ∧ ys <:+ xs ++ f s a)
    {s t : σ} {xs : List β} {as : List α} (hr : M.Reachable s) (h : C s xs)
    (hrun : M.run s as = some t) : ∃ ys, C t ys ∧ ys <:+ xs ++ M.shown f s as := by
  induction as generalizing s xs with
  | nil =>
    refine ⟨xs, Option.some.inj hrun ▸ h, ?_⟩
    simp [shown]
  | cons a as ih =>
    obtain ⟨u, hu, hrest⟩ := run_cons.mp hrun
    obtain ⟨ys, hys, pre, hpre⟩ := hstep s a u xs hr h hu
    obtain ⟨zs, hzs, mid, hmid⟩ := ih (hr.next hu) hys hrest
    refine ⟨zs, hzs, pre ++ mid, ?_⟩
    simp only [shown, hu]
    rw [List.append_assoc, hmid, ← List.append_assoc, hpre, List.append_assoc]

/-- A property that only the steps of `E` can end holds at the end of a run,
or the run takes such a step from a state in which the property holds. -/
theorem run_until {P : σ → Prop} {E : σ → α → Prop}
    (hstep : ∀ s a s', M.Reachable s → P s → M.step s a = some s' → P s' ∨ E s a)
    {s t : σ} {as : List α} (hr : M.Reachable s) (h : P s) (hrun : M.run s as = some t) :
    P t ∨ ∃ pre a post u, as = pre ++ a :: post ∧ M.run s pre = some u ∧ P u ∧ E u a := by
  induction as generalizing s with
  | nil => exact .inl (Option.some.inj hrun ▸ h)
  | cons a as ih =>
    obtain ⟨u, hu, hrest⟩ := run_cons.mp hrun
    rcases hstep s a u hr h hu with hkeep | hend
    · rcases ih (hr.next hu) hkeep hrest with hlast | ⟨pre, b, post, x, heq, hx, hP, hE⟩
      · exact .inl hlast
      · refine .inr ⟨a :: pre, b, post, x, ?_, run_cons.mpr ⟨u, hu, hx⟩, hP, hE⟩
        rw [heq, List.cons_append]
    · exact .inr ⟨[], a, as, s, rfl, rfl, h, hend⟩

end Machine

end Lib
