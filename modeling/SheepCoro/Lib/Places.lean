import SheepCoro.Lib.History
import SheepCoro.Lib.Update
import Mathlib.Data.List.Perm.Basic
import Mathlib.Data.List.Nodup
import Mathlib.Data.List.Count

/-!
# What is in the places

Things are in places, at most one in each: a thread has one in its hands, a
slot of an array has one, a message is in flight.  `hold p` is what is in the
place `p`, and `Contents hold xs` says that the things in all the places are
`xs`, in some order.

A thing arrives (`Contents.put`), departs (`Contents.take`), or goes from one
place to another (`Contents.move`).  `Machine.conserve` is the rule for runs:
what was there and what arrived is what departed and what is there at the end.
-/

namespace Lib

open scoped List

universe u v w

variable {π : Type u} {ε : Type v}

/-- The things in the places are `xs`, in some order. -/
def Contents (hold : π → Option ε) (xs : List ε) : Prop :=
  ∃ ps : List π, ps.Nodup ∧ (∀ p, p ∈ ps ↔ hold p ≠ none) ∧ xs.Perm (ps.filterMap hold)

namespace Contents

variable {hold : π → Option ε} {xs ys : List ε} {p q : π} {x : ε}

theorem init (h : ∀ p, hold p = none) : Contents hold [] :=
  ⟨[], List.nodup_nil, by simp [h], List.Perm.nil⟩

theorem perm (h : Contents hold xs) (hperm : xs.Perm ys) : Contents hold ys := by
  obtain ⟨ps, hnodup, hmem, hxs⟩ := h
  exact ⟨ps, hnodup, hmem, hperm.symm.trans hxs⟩

/-- A thing is among the contents if it is in some place. -/
theorem mem_iff (h : Contents hold xs) : x ∈ xs ↔ ∃ p, hold p = some x := by
  obtain ⟨ps, _, hmem, hxs⟩ := h
  rw [hxs.mem_iff, List.mem_filterMap]
  constructor
  · rintro ⟨p, _, hp⟩
    exact ⟨p, hp⟩
  · rintro ⟨p, hp⟩
    refine ⟨p, (hmem p).mpr ?_, hp⟩
    rw [hp]
    exact Option.some_ne_none x

variable [DecidableEq π]

theorem filterMap_update {o : Option ε} {ps : List π} (hp : p ∉ ps) :
    ps.filterMap (Function.update hold p o) = ps.filterMap hold := by
  apply List.filterMap_congr
  intro q hq
  apply Function.update_of_ne
  intro heq
  exact hp (heq ▸ hq)

/-- A thing arrives at an empty place. -/
theorem put (h : Contents hold xs) (hp : hold p = none) (x : ε) :
    Contents (Function.update hold p (some x)) (x :: xs) := by
  obtain ⟨ps, hnodup, hmem, hxs⟩ := h
  have hout : p ∉ ps := fun hin => (hmem p).mp hin hp
  refine ⟨p :: ps, List.nodup_cons.mpr ⟨hout, hnodup⟩, ?_, ?_⟩
  · intro q
    by_cases hq : q = p
    · subst hq
      simp
    · rw [List.mem_cons, Function.update_of_ne hq, hmem q]
      simp [hq]
  · rw [List.filterMap_cons_some (Function.update_self ..), filterMap_update hout]
    exact hxs.cons x

/-- A thing departs from its place. -/
theorem take (h : Contents hold xs) (hp : hold p = some x) :
    ∃ ys, Contents (Function.update hold p none) ys ∧ xs.Perm (x :: ys) := by
  obtain ⟨ps, hnodup, hmem, hxs⟩ := h
  have hin : p ∈ ps := by
    apply (hmem p).mpr
    rw [hp]
    exact Option.some_ne_none x
  have hout : p ∉ ps.erase p := hnodup.not_mem_erase
  refine ⟨(ps.erase p).filterMap hold, ⟨ps.erase p, hnodup.erase p, ?_, ?_⟩, ?_⟩
  · intro q
    rw [hnodup.mem_erase_iff, hmem q]
    by_cases hq : q = p
    · subst hq
      simp
    · rw [Function.update_of_ne hq]
      simp [hq]
  · rw [filterMap_update hout]
  · calc xs ~ ps.filterMap hold := hxs
      _ ~ (p :: ps.erase p).filterMap hold := (List.perm_cons_erase hin).filterMap hold
      _ = x :: (ps.erase p).filterMap hold := List.filterMap_cons_some hp

/-- A thing goes from its place to an empty one. -/
theorem move (h : Contents hold xs) (hp : hold p = some x) (hq : hold q = none) :
    Contents (Function.update (Function.update hold p none) q (some x)) xs := by
  obtain ⟨ys, hys, hperm⟩ := h.take hp
  have hempty : Function.update hold p none q = none := by
    by_cases hqp : q = p
    · rw [hqp, Function.update_self]
    · rw [Function.update_of_ne hqp, hq]
  exact (hys.put hempty x).perm hperm.symm

end Contents

namespace Machine

variable {σ : Type u} {α : Type v} {M : Machine σ α} {ε : Type w}

/-- The rule for runs.  A step has to account for what arrives (`f`) and what
departs (`g`) in it. -/
theorem conserve {f g : σ → α → List ε} {C : σ → List ε → Prop}
    (hstep : ∀ s a s' xs, M.Reachable s → C s xs → M.step s a = some s' →
      ∃ ys, C s' ys ∧ (xs ++ f s a).Perm (g s a ++ ys))
    {s t : σ} {xs : List ε} {as : List α} (hr : M.Reachable s) (h : C s xs)
    (hrun : M.run s as = some t) :
    ∃ ys, C t ys ∧ (xs ++ M.shown f s as).Perm (M.shown g s as ++ ys) := by
  induction as generalizing s xs with
  | nil =>
    refine ⟨xs, Option.some.inj hrun ▸ h, ?_⟩
    rw [shown, shown, List.append_nil, List.nil_append]
  | cons a as ih =>
    obtain ⟨u, hu, hrest⟩ := run_cons.mp hrun
    obtain ⟨ys, hys, hmove⟩ := hstep s a u xs hr h hu
    obtain ⟨zs, hzs, hlater⟩ := ih (hr.next hu) hys hrest
    refine ⟨zs, hzs, ?_⟩
    simp only [shown, hu]
    calc xs ++ (f s a ++ M.shown f u as)
        = (xs ++ f s a) ++ M.shown f u as := (List.append_assoc ..).symm
      _ ~ (g s a ++ ys) ++ M.shown f u as := hmove.append_right _
      _ = g s a ++ (ys ++ M.shown f u as) := List.append_assoc ..
      _ ~ g s a ++ (M.shown g u as ++ zs) := hlater.append_left _
      _ = g s a ++ M.shown g u as ++ zs := (List.append_assoc ..).symm

end Machine

end Lib
