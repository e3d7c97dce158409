import Mathlib.Data.Nat.Count
import Mathlib.Tactic.Common

/-!
# Counting tickets

Tickets are numbers that are handed out in order, and some of them are of
interest: those of one slot, or those of one slot that somebody has used.
`Nat.count p n` is how many of the first `n` tickets meet `p`.

A ticket that is used from now on adds one (`count_switch`).  When fewer
tickets are used than there are, one is not used (`exists_of_count_lt`).  When
no two tickets of a lap meet `p`, a lap adds at most one (`count_lap`).
-/

namespace Lib

variable {p q : Nat → Prop} [DecidablePred p] [DecidablePred q] {k m n : Nat}

/-- The tickets below `n` are the same. -/
theorem count_congr (h : ∀ x < n, p x ↔ q x) : Nat.count p n = Nat.count q n := by
  induction n with
  | zero => rw [Nat.count_zero, Nat.count_zero]
  | succ n ih =>
    rw [Nat.count_succ, Nat.count_succ, ih fun x hx => h x (by omega)]
    simp only [h n (by omega)]

/-- One more ticket meets the predicate. -/
theorem count_switch (hk : ¬ p k) (hq : ∀ x, q x ↔ p x ∨ x = k) (hlt : k < n) :
    Nat.count q n = Nat.count p n + 1 := by
  induction n with
  | zero => omega
  | succ n ih =>
    rw [Nat.count_succ, Nat.count_succ]
    by_cases hkn : k = n
    · subst hkn
      have hbelow : Nat.count q k = Nat.count p k := by
        apply count_congr
        intro x hx
        rw [hq x]
        have hne : x ≠ k := by omega
        simp [hne]
      have hqk : q k := (hq k).mpr (.inr rfl)
      rw [hbelow, if_pos hqk, if_neg hk]
    · have hsame : q n ↔ p n := by
        rw [hq n]
        have hne : n ≠ k := by omega
        simp [hne]
      rw [ih (by omega)]
      simp only [hsame]
      omega

/-- Fewer tickets meet `q` than `p`. -/
theorem exists_of_count_lt (h : Nat.count q n < Nat.count p n) : ∃ x < n, p x ∧ ¬ q x := by
  induction n with
  | zero => simp at h
  | succ n ih =>
    rw [Nat.count_succ, Nat.count_succ] at h
    by_cases hlt : Nat.count q n < Nat.count p n
    · obtain ⟨x, hx, hpq⟩ := ih hlt
      exact ⟨x, by omega, hpq⟩
    · refine ⟨n, by omega, ?_⟩
      by_contra hnot
      have himp : p n → q n := fun hp => by_contra fun hq => hnot ⟨hp, hq⟩
      split_ifs at h with hq hp hp
      · omega
      · omega
      · exact hq (himp hp)
      · omega

/-- No ticket of a lap meets the predicate. -/
theorem count_none (h : ∀ x, n ≤ x → x < n + m → ¬ p x) :
    Nat.count p (n + m) = Nat.count p n := by
  induction m with
  | zero => rfl
  | succ m ih =>
    have hlast : ¬ p (n + m) := h (n + m) (by omega) (by omega)
    rw [← Nat.add_assoc, Nat.count_succ, if_neg hlast, Nat.add_zero]
    exact ih fun x hx hlt => h x hx (by omega)

/-- At most one ticket of a lap meets the predicate. -/
theorem count_lap (h : ∀ x y, n ≤ x → x < y → y < n + m → p x → ¬ p y) :
    Nat.count p (n + m) ≤ Nat.count p n + 1 := by
  induction m with
  | zero => exact Nat.le_succ _
  | succ m ih =>
    rw [← Nat.add_assoc, Nat.count_succ]
    by_cases hlast : p (n + m)
    · have hothers : ∀ x, n ≤ x → x < n + m → ¬ p x :=
        fun x hx hlt hp => h x (n + m) hx hlt (by omega) hp hlast
      rw [if_pos hlast, count_none hothers]
    · rw [if_neg hlast]
      exact ih fun x y hx hxy hy => h x y hx hxy (by omega)

end Lib
