import SheepCoro.Lib.Update

/-!
# Who is inside of a lock

A family of lock words, each of which is set by whoever enters and cleared by
whoever leaves.  `Guarded` is what such words are for: a word is set exactly
when somebody is inside, and then nobody else is.  The moves are an entrance
through a clear word (`Guarded.enter`) and a departure (`Guarded.leave`).
-/

namespace Lib

universe u v

variable {κ : Type u} {χ : Type v} [DecidableEq κ] [DecidableEq χ]

structure Guarded (lock : κ → Bool) (inside : χ → Option κ) : Prop where
  held : ∀ k, lock k = true ↔ ∃ x, inside x = some k
  unique : ∀ {x y k}, inside x = some k → inside y = some k → x = y

namespace Guarded

variable {lock : κ → Bool} {inside : χ → Option κ} {x : χ} {k : κ}

omit [DecidableEq κ] [DecidableEq χ] in
theorem init : Guarded (fun _ : κ => false) fun _ : χ => none where
  held k := by simp
  unique hx := by cases hx

omit [DecidableEq κ] [DecidableEq χ] in
/-- Nobody is inside of a lock whose word is clear. -/
theorem vacant (h : Guarded lock inside) (hk : lock k = false) (x : χ) : inside x ≠ some k := by
  intro hx
  rw [(h.held k).mpr ⟨x, hx⟩] at hk
  cases hk

theorem enter (h : Guarded lock inside) (hx : inside x = none) (hk : lock k = false) :
    Guarded (Function.update lock k true) (Function.update inside x (some k)) where
  held j := by
    by_cases hj : j = k
    · subst hj
      rw [Function.update_self]
      exact iff_of_true rfl ⟨x, Function.update_self ..⟩
    · rw [Function.update_of_ne hj, h.held j]
      constructor
      · rintro ⟨y, hy⟩
        have hne : y ≠ x := by
          rintro rfl
          rw [hx] at hy
          cases hy
        exact ⟨y, (Function.update_of_ne hne ..).trans hy⟩
      · rintro ⟨y, hy⟩
        rcases update_eq_iff.mp hy with ⟨_, heq⟩ | ⟨_, hold⟩
        · exact absurd (Option.some.inj heq).symm hj
        · exact ⟨y, hold⟩
  unique := by
    intro y z j hy hz
    rcases update_eq_iff.mp hy with ⟨hyx, hj⟩ | ⟨_, hy⟩
    · rcases update_eq_iff.mp hz with ⟨hzx, _⟩ | ⟨_, hz⟩
      · exact hyx.trans hzx.symm
      · exact absurd (hz.trans hj.symm) (h.vacant hk z)
    · rcases update_eq_iff.mp hz with ⟨_, hj⟩ | ⟨_, hz⟩
      · exact absurd (hy.trans hj.symm) (h.vacant hk y)
      · exact h.unique hy hz

theorem leave (h : Guarded lock inside) (hx : inside x = some k) :
    Guarded (Function.update lock k false) (Function.update inside x none) where
  held j := by
    by_cases hj : j = k
    · subst hj
      rw [Function.update_self]
      constructor
      · intro hset
        cases hset
      · rintro ⟨y, hy⟩
        rcases update_eq_iff.mp hy with ⟨_, heq⟩ | ⟨hne, hold⟩
        · cases heq
        · exact absurd (h.unique hold hx) hne
    · rw [Function.update_of_ne hj, h.held j]
      constructor
      · rintro ⟨y, hy⟩
        have hne : y ≠ x := by
          rintro rfl
          exact hj (Option.some.inj (hy.symm.trans hx))
        exact ⟨y, (Function.update_of_ne hne ..).trans hy⟩
      · rintro ⟨y, hy⟩
        exact ⟨y, of_update_eq hy (by simp)⟩
  unique := by
    intro y z j hy hz
    exact h.unique (of_update_eq hy (by simp)) (of_update_eq hz (by simp))

end Guarded

end Lib
