import SheepCoro.Lib.Update
import Mathlib.Data.List.Count
import Mathlib.Logic.Equiv.Basic

/-!
# Unique owners

Things are made, held by owners, and given up.  `Owned` is the account of
them: a thing that was made has one holder, or was given up once.  An owner
holds at most one thing.  The three moves are a new thing (`Owned.make`), a
thing that its owner gives up (`Owned.drop`), and a thing that passes from one
owner to another (`Owned.pass`).
-/

namespace Lib

universe u v

variable {τ : Type u} {φ : Type v} [DecidableEq τ] [DecidableEq φ]

/-- Who holds what, which things were made, and how often each was given up. -/
structure Owned (holds : τ → Option φ) (made : φ → Prop) (given : φ → Nat) : Prop where
  unique : ∀ {t t' f}, holds t = some f → holds t' = some f → t = t'
  held : ∀ {t f}, holds t = some f → made f ∧ given f = 0
  lost : ∀ {f}, made f → (∀ t, holds t ≠ some f) → given f = 1
  unmade : ∀ {f}, ¬ made f → given f = 0

namespace Owned

variable {holds : τ → Option φ} {made : φ → Prop} {given given' : φ → Nat} {t t' : τ} {f : φ}

section

omit [DecidableEq τ] [DecidableEq φ]

theorem init (h : ∀ t, holds t = none) (hmade : ∀ f, ¬ made f) :
    Owned holds made fun _ => 0 where
  unique ht := by simp [h] at ht
  held ht := by simp [h] at ht
  lost hf := absurd hf (hmade _)
  unmade _ := rfl

end

omit [DecidableEq φ] in
/-- A new thing. -/
theorem make (h : Owned holds made given) (ht : holds t = none) (hf : ¬ made f) :
    Owned (Function.update holds t (some f)) (fun g => g = f ∨ made g) given where
  unique := by
    intro x x' g hx hx'
    rcases update_eq_iff.mp hx with ⟨hxt, hfg⟩ | ⟨hxt, hold⟩
    · cases hfg
      rcases update_eq_iff.mp hx' with ⟨hxt', _⟩ | ⟨_, hold'⟩
      · exact hxt.trans hxt'.symm
      · exact absurd (h.held hold').1 hf
    · rcases update_eq_iff.mp hx' with ⟨_, hfg⟩ | ⟨_, hold'⟩
      · cases hfg
        exact absurd (h.held hold).1 hf
      · exact h.unique hold hold'
  held := by
    intro x g hx
    rcases update_eq_iff.mp hx with ⟨_, hfg⟩ | ⟨_, hold⟩
    · cases hfg
      exact ⟨.inl rfl, h.unmade hf⟩
    · exact ⟨.inr (h.held hold).1, (h.held hold).2⟩
  lost := by
    intro g hg hnone
    have hne : g ≠ f := by
      intro hgf
      exact hnone t (by rw [Function.update_self, hgf])
    apply h.lost (hg.resolve_left hne)
    intro x hx
    have hxt : x ≠ t := by
      intro hxt
      rw [hxt, ht] at hx
      cases hx
    exact hnone x ((Function.update_of_ne hxt ..).trans hx)
  unmade := by
    intro g hg
    exact h.unmade fun hmade => hg (.inr hmade)

theorem count_toList_eq_zero {o : Option φ} (h : o ≠ some f) : o.toList.count f = 0 := by
  rw [List.count_eq_zero, Option.mem_toList]
  exact h

/-- An owner gives up what it holds, if anything. -/
theorem drop (h : Owned holds made given) (t : τ)
    (hgiven : ∀ g, given' g = given g + (holds t).toList.count g) :
    Owned (Function.update holds t none) made given' where
  unique := by
    intro x x' g hx hx'
    exact h.unique (of_update_eq hx (by simp)) (of_update_eq hx' (by simp))
  held := by
    intro x g hx
    rcases update_eq_iff.mp hx with ⟨_, hnone⟩ | ⟨hxt, hold⟩
    · cases hnone
    · have htg : holds t ≠ some g := fun ht => hxt (h.unique hold ht)
      rw [hgiven, count_toList_eq_zero htg]
      exact h.held hold
  lost := by
    intro g hg hnone
    rw [hgiven]
    by_cases ht : holds t = some g
    · rw [(h.held ht).2, ht]
      simp
    · rw [count_toList_eq_zero ht]
      apply h.lost hg
      intro x hx
      have hxt : x ≠ t := by
        rintro rfl
        exact ht hx
      exact hnone x ((Function.update_of_ne hxt ..).trans hx)
  unmade := by
    intro g hg
    have ht : holds t ≠ some g := fun ht => hg (h.held ht).1
    rw [hgiven, count_toList_eq_zero ht, h.unmade hg]

omit [DecidableEq τ] [DecidableEq φ] in
/-- The owners change places. -/
theorem comp (h : Owned holds made given) (e : τ ≃ τ) : Owned (holds ∘ e) made given where
  unique := by
    intro x x' g hx hx'
    exact e.injective (h.unique hx hx')
  held := by
    intro x g hx
    exact h.held hx
  lost := by
    intro g hg hnone
    apply h.lost hg
    intro x
    have hx := hnone (e.symm x)
    rwa [Function.comp_apply, e.apply_symm_apply] at hx
  unmade := h.unmade

omit [DecidableEq φ] in
/-- An owner with nothing takes what another one holds. -/
theorem pass (h : Owned holds made given) (t' : τ) (ht : holds t = none) :
    Owned (Function.update (Function.update holds t' none) t (holds t')) made given := by
  have heq : Function.update (Function.update holds t' none) t (holds t') =
      holds ∘ Equiv.swap t t' := by
    funext x
    rw [Function.comp_apply, Equiv.swap_apply_def]
    by_cases hx : x = t
    · rw [hx, Function.update_self, if_pos rfl]
    · rw [Function.update_of_ne hx, if_neg hx]
      by_cases hx' : x = t'
      · rw [hx', Function.update_self, if_pos rfl, ht]
      · rw [Function.update_of_ne hx', if_neg hx']
  rw [heq]
  exact h.comp (Equiv.swap t t')

end Owned

end Lib
