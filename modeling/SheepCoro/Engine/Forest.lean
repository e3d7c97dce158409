import SheepCoro.Engine.Model
import SheepCoro.Lib.Chain
import Mathlib.Data.Multiset.MapFold
import Mathlib.Tactic.Common

/-!
# The frames that are not finished form stacks

A root task and the tasks it awaits, one inside the other, form a stack that
is linked by `m_continuation`.  The innermost frame, the leaf, is the only
one that anybody outside refers to: it is queued, or a primitive holds its
handle, or a call runs it.  `Forest frames size leaves` says that the leaves
head disjoint chains of frames that are suspended or running.

The lemmas follow the ways in which the engine changes the frames: a task is
created, a frame awaits a child, a leaf finishes into its parent or at the
root, a leaf is dropped.
-/

namespace SheepCoro.Engine

open Lib

/-- The link field of the stacks. -/
abbrev continuations (frames : Nat → Frame) (f : Nat) : Option Nat :=
  (frames f).continuation

/-- The frame has not reached its final suspend point. -/
def Frame.Unfinished (f : Frame) : Prop :=
  f.status = .suspended ∨ f.status = .running

theorem Frame.not_unfinished {f : Frame} (h : f.isDone = true) : ¬ f.Unfinished := by
  rintro (hst | hst) <;> simp [Frame.isDone, hst] at h

/-- A leaf and the frames behind it up to the root. -/
structure Stack (frames : Nat → Frame) (size : Nat) (fs : List Nat) : Prop where
  chain : Chain (continuations frames) fs.head? fs
  unfinished : ∀ f ∈ fs, f < size ∧ (frames f).Unfinished

/-- The leaves head disjoint stacks. -/
def Forest (frames : Nat → Frame) (size : Nat) (leaves : Multiset Nat) : Prop :=
  ∃ trees : List (List Nat), (trees.map List.head? : Multiset (Option Nat)) = leaves.map some ∧
    trees.flatten.Nodup ∧ ∀ fs ∈ trees, Stack frames size fs

variable {frames : Nat → Frame} {size : Nat} {leaves ls : Multiset Nat} {f : Nat} {F : Frame}

/-! ## One stack -/

/-- A change outside of a stack, or one that keeps the links and the frame
unfinished, keeps the stack. -/
theorem Stack.congr {frames' : Nat → Frame} {size' : Nat} {fs : List Nat}
    (h : Stack frames size fs) (hsize : size ≤ size')
    (hfs : ∀ f ∈ fs, (frames' f).continuation = (frames f).continuation ∧
      (frames' f).Unfinished) : Stack frames' size' fs where
  chain := h.chain.congr fun f hf => (hfs f hf).1
  unfinished f hf := ⟨Nat.lt_of_lt_of_le (h.unfinished f hf).1 hsize, (hfs f hf).2⟩

theorem Stack.update {fs : List Nat} {size' : Nat} (h : Stack frames size fs)
    (hsize : size ≤ size') (hf : f ∉ fs) : Stack (Function.update frames f F) size' fs := by
  apply h.congr hsize
  intro g hg
  have hgf : g ≠ f := fun hgf => hf (hgf ▸ hg)
  rw [Function.update_of_ne hgf]
  exact ⟨rfl, (h.unfinished g hg).2⟩

/-! ## The leaves -/

/-- The stack of one leaf, and the stacks of the others. -/
theorem Forest.cons_iff : Forest frames size (f ::ₘ ls) ↔
    ∃ (fs : List Nat) (trees : List (List Nat)),
      (trees.map List.head? : Multiset (Option Nat)) = ls.map some ∧
      ((f :: fs) ++ trees.flatten).Nodup ∧
      Stack frames size (f :: fs) ∧ ∀ gs ∈ trees, Stack frames size gs := by
  constructor
  · intro h
    obtain ⟨trees, hmap, hnd, hst⟩ := h
    rw [Multiset.map_cons] at hmap
    have hmem : some f ∈ (trees.map List.head? : Multiset (Option Nat)) := by
      rw [hmap]
      exact Multiset.mem_cons_self ..
    obtain ⟨gs, hgs, hhead⟩ := List.mem_map.mp (Multiset.mem_coe.mp hmem)
    obtain ⟨fs, rfl⟩ := List.head?_eq_some_iff.mp hhead
    -- Bring the stack of `f` to the front.
    have hfront := List.perm_cons_erase hgs
    refine ⟨fs, trees.erase (f :: fs), ?_, ?_, hst _ hgs, fun gs hgs' =>
      hst gs (List.mem_of_mem_erase hgs')⟩
    · rw [Multiset.coe_eq_coe.mpr (hfront.map List.head?)] at hmap
      exact (Multiset.cons_inj_right _).mp hmap
    · have hflat := hfront.flatten
      rw [List.flatten_cons] at hflat
      exact hflat.nodup_iff.mp hnd
  · intro h
    obtain ⟨fs, trees, hmap, hnd, hfs, hst⟩ := h
    refine ⟨(f :: fs) :: trees, ?_, hnd, fun gs hgs => ?_⟩
    · rw [Multiset.map_cons, ← hmap]
      rfl
    · rcases List.mem_cons.mp hgs with hgs | hgs
      · exact hgs ▸ hfs
      · exact hst gs hgs

theorem Forest.zero : Forest frames size 0 :=
  ⟨[], rfl, List.nodup_nil, by simp⟩

/-- A leaf that is forgotten takes its stack with it. -/
theorem Forest.drop (h : Forest frames size (f ::ₘ ls)) : Forest frames size ls := by
  obtain ⟨fs, trees, hmap, hnd, _, hst⟩ := Forest.cons_iff.mp h
  exact ⟨trees, hmap, (List.nodup_append.mp hnd).2.1, hst⟩

/-- A leaf has a stack. -/
theorem Forest.exists_stack (h : Forest frames size leaves) (hf : f ∈ leaves) :
    ∃ fs, Stack frames size (f :: fs) := by
  obtain ⟨ls, rfl⟩ := Multiset.exists_cons_of_mem hf
  obtain ⟨fs, _, _, _, hfs, _⟩ := Forest.cons_iff.mp h
  exact ⟨fs, hfs⟩

/-- Every frame behind a leaf has not finished either. -/
theorem Forest.chain_unfinished (h : Forest frames size leaves) (hf : f ∈ leaves) {fs : List Nat}
    (hfs : Chain (continuations frames) (some f) fs) {x : Nat} (hx : x ∈ fs) :
    x < size ∧ (frames x).Unfinished := by
  obtain ⟨gs, hgs⟩ := h.exists_stack hf
  have heq : fs = f :: gs := Chain.unique hfs hgs.chain
  exact hgs.unfinished x (heq ▸ hx)

/-- No leaf is behind another one. -/
theorem Forest.not_mem_chain {fs : List Nat} {g : Nat} (h : Forest frames size (f ::ₘ ls))
    (hfs : Chain (continuations frames) (some f) fs) (hg : g ∈ ls) : g ∉ fs := by
  obtain ⟨ls, rfl⟩ := Multiset.exists_cons_of_mem hg
  obtain ⟨ks, trees, hmap, hnd, hks, _⟩ := Forest.cons_iff.mp h
  have heq : fs = f :: ks := Chain.unique hfs hks.chain
  have hmem : some g ∈ (trees.map List.head? : Multiset (Option Nat)) := by
    rw [hmap, Multiset.map_cons]
    exact Multiset.mem_cons_self ..
  obtain ⟨gs, hgs, hhead⟩ := List.mem_map.mp (Multiset.mem_coe.mp hmem)
  have hflat : g ∈ trees.flatten := List.mem_flatten.mpr ⟨gs, hgs, List.mem_of_head? hhead⟩
  intro hgf
  exact List.disjoint_of_nodup_append hnd (heq ▸ hgf) hflat

/-! ## How the frames change -/

/-- A frame changes its status or its body but stays unfinished. -/
theorem Forest.touch (h : Forest frames size leaves)
    (hcont : F.continuation = (frames f).continuation) (hF : F.Unfinished) :
    Forest (Function.update frames f F) size leaves := by
  obtain ⟨trees, hmap, hnd, hst⟩ := h
  refine ⟨trees, hmap, hnd, fun fs hfs => (hst fs hfs).congr (Nat.le_refl _) fun g hg => ?_⟩
  by_cases hgf : g = f
  · subst hgf
    rw [Function.update_self]
    exact ⟨hcont, hF⟩
  · rw [Function.update_of_ne hgf]
    exact ⟨rfl, ((hst fs hfs).unfinished g hg).2⟩

/-- A frame that is finished already is on no stack. -/
theorem Forest.retire (h : Forest frames size leaves) (hf : ¬ (frames f).Unfinished) :
    Forest (Function.update frames f F) size leaves := by
  obtain ⟨trees, hmap, hnd, hst⟩ := h
  refine ⟨trees, hmap, hnd, fun fs hfs => (hst fs hfs).update (Nat.le_refl _) fun hm => ?_⟩
  exact hf ((hst fs hfs).unfinished f hm).2

/-- The stacks do not reach the next free address. -/
theorem size_not_mem {trees : List (List Nat)} (hst : ∀ fs ∈ trees, Stack frames size fs) :
    size ∉ trees.flatten := by
  intro hmem
  obtain ⟨fs, hfs, hn⟩ := List.mem_flatten.mp hmem
  exact Nat.lt_irrefl _ ((hst fs hfs).unfinished size hn).1

/-- A new frame at the next free address heads a stack of its own. -/
theorem Forest.create (h : Forest frames size leaves) (hcont : F.continuation = none)
    (hF : F.Unfinished) : Forest (Function.update frames size F) (size + 1) (size ::ₘ leaves) := by
  obtain ⟨trees, hmap, hnd, hst⟩ := h
  have hfresh := size_not_mem hst
  refine Forest.cons_iff.mpr ⟨[], trees, hmap, ?_, ⟨⟨rfl, ?_⟩, ?_⟩, fun fs hfs => ?_⟩
  · exact List.nodup_cons.mpr ⟨hfresh, hnd⟩
  · simp [continuations, hcont]
  · intro g hg
    rw [List.mem_singleton.mp hg, Function.update_self]
    exact ⟨Nat.lt_succ_self _, hF⟩
  · exact (hst fs hfs).update (Nat.le_succ _) fun hm =>
      hfresh (List.mem_flatten.mpr ⟨fs, hfs, hm⟩)

/-- A leaf awaits a child at the next free address, which becomes the
leaf. -/
theorem Forest.child (h : Forest frames size (f ::ₘ ls)) (hcont : F.continuation = some f)
    (hF : F.Unfinished) : Forest (Function.update frames size F) (size + 1) (size ::ₘ ls) := by
  obtain ⟨fs, trees, hmap, hnd, hfs, hst⟩ := Forest.cons_iff.mp h
  have hfresh : size ∉ (f :: fs) ++ trees.flatten := by
    intro hm
    rcases List.mem_append.mp hm with hm | hm
    · exact Nat.lt_irrefl _ (hfs.unfinished size hm).1
    · exact size_not_mem hst hm
  have hout : size ∉ f :: fs := fun hm => hfresh (List.mem_append_left _ hm)
  have hkeep := hfs.update (F := F) (Nat.le_succ size) hout
  refine Forest.cons_iff.mpr ⟨f :: fs, trees, hmap, List.nodup_cons.mpr ⟨hfresh, hnd⟩,
    ⟨⟨rfl, ?_⟩, ?_⟩, fun gs hgs => ?_⟩
  · rw [continuations, Function.update_self, hcont]
    exact hkeep.chain
  · intro g hg
    rcases List.mem_cons.mp hg with hg | hg
    · rw [hg, Function.update_self]
      exact ⟨Nat.lt_succ_self _, hF⟩
    · exact hkeep.unfinished g hg
  · exact (hst gs hgs).update (Nat.le_succ _) fun hm =>
      hfresh (List.mem_append_right _ (List.mem_flatten.mpr ⟨gs, hgs, hm⟩))

/-- A leaf at the root of its stack finishes. -/
theorem Forest.finish (h : Forest frames size (f ::ₘ ls)) :
    Forest (Function.update frames f F) size ls := by
  obtain ⟨fs, trees, hmap, hnd, _, hst⟩ := Forest.cons_iff.mp h
  obtain ⟨_, hrest, hdisj⟩ := List.nodup_append.mp hnd
  refine ⟨trees, hmap, hrest, fun gs hgs => (hst gs hgs).update (Nat.le_refl _) fun hm => ?_⟩
  exact hdisj f (List.mem_cons_self ..) f (List.mem_flatten.mpr ⟨gs, hgs, hm⟩) rfl

/-- A leaf finishes and its parent becomes the leaf. -/
theorem Forest.ret {parent : Nat} (h : Forest frames size (f ::ₘ ls))
    (hcont : (frames f).continuation = some parent) :
    Forest (Function.update frames f F) size (parent ::ₘ ls) := by
  obtain ⟨fs, trees, hmap, hnd, hfs, hst⟩ := Forest.cons_iff.mp h
  have hnd' := hnd
  rw [List.cons_append, List.nodup_cons] at hnd'
  have htail := hfs.chain.2
  rw [continuations, hcont] at htail
  obtain ⟨rest, rfl, _⟩ := Chain.some_iff.mp htail
  have hout : f ∉ parent :: rest := fun hm => hnd'.1 (List.mem_append_left _ hm)
  have hpar : Stack frames size (parent :: rest) :=
    ⟨htail, fun g hg => hfs.unfinished g (List.mem_cons_of_mem _ hg)⟩
  refine Forest.cons_iff.mpr ⟨rest, trees, hmap, hnd'.2, hpar.update (Nat.le_refl _) hout,
    fun gs hgs => (hst gs hgs).update (Nat.le_refl _) fun hm => ?_⟩
  exact hnd'.1 (List.mem_append_right _ (List.mem_flatten.mpr ⟨gs, hgs, hm⟩))

end SheepCoro.Engine
