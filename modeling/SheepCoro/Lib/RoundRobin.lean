import Mathlib.Data.Int.CardIntervalMod
import Mathlib.Tactic.Common

/-!
# A counter that deals round robin

A counter below `m` goes up by one with every turn and wraps around, and turn
`k` is that of party `k % n`.  `turns` is the parties of the next `d` turns.

Until the counter wraps around, no party gets two turns more than another one
(`straight_balanced`).  Where it does, the round is cut short unless `n`
divides `m`: every lap costs one more turn (`turns_balanced`).
-/

namespace Lib

variable {m n start d e : Nat} [NeZero n] {i j : Fin n}

/-- The parties of the next `d` turns. -/
def turns (m n start d : Nat) [NeZero n] : List (Fin n) :=
  (List.range d).map fun k => Fin.ofNat n ((start + k) % m)

/-- The parties of `d` turns without a wrap. -/
def straight (n start d : Nat) [NeZero n] : List (Fin n) :=
  (List.range d).map fun k => Fin.ofNat n (start + k)

theorem turns_succ : turns m n start (d + 1) =
    turns m n start d ++ [Fin.ofNat n ((start + d) % m)] := by
  simp [turns, List.range_succ]

@[simp] theorem length_turns : (turns m n start d).length = d := by
  simp [turns]

theorem turns_append : turns m n start (d + e) = turns m n start d ++ turns m n (start + d) e := by
  unfold turns
  rw [List.range_add, List.map_append, List.map_map]
  congr 1
  apply List.map_congr_left
  intro k _
  show Fin.ofNat n ((start + (d + k)) % m) = _
  rw [Nat.add_assoc]

theorem turns_lap : turns m n m d = turns m n 0 d := by
  unfold turns
  apply List.map_congr_left
  intro k _
  rw [Nat.add_mod_left, Nat.zero_add]

theorem turns_eq_straight (h : start + d ≤ m) : turns m n start d = straight n start d := by
  unfold turns straight
  apply List.map_congr_left
  intro k hk
  have hlt : start + k < m := by
    have hkd := List.mem_range.mp hk
    omega
  rw [Nat.mod_eq_of_lt hlt]

theorem turns_of_dvd (h : n ∣ m) : turns m n start d = straight n start d := by
  unfold turns straight
  apply List.map_congr_left
  intro k _
  apply Fin.ext
  show (start + k) % m % n = (start + k) % n
  exact Nat.mod_mod_of_dvd _ h

/-- The turns of one party are those of one residue. -/
theorem count_straight : (straight n start d).count i =
    Nat.count (fun k => start + k ≡ i [MOD n]) d := by
  induction d with
  | zero => rfl
  | succ d ih =>
    have hlast : Fin.ofNat n (start + d) = i ↔ start + d ≡ i [MOD n] := by
      rw [Fin.ext_iff]
      show (start + d) % n = i ↔ (start + d) % n = i % n
      rw [Nat.mod_eq_of_lt i.isLt]
    have hsplit : straight n start (d + 1) = straight n start d ++ [Fin.ofNat n (start + d)] := by
      simp [straight, List.range_succ]
    rw [hsplit, List.count_append, ih, Nat.count_succ, List.count_singleton]
    simp only [beq_iff_eq, hlast]

theorem exists_residue (start i : Nat) :
    ∃ v, ∀ k, start + k ≡ i [MOD n] ↔ k ≡ v [MOD n] := by
  have hn : 0 < n := NeZero.pos n
  have hle : start ≤ n * (start / n + 1) := by
    have hdiv := Nat.div_add_mod start n
    have hmod := Nat.mod_lt start hn
    rw [Nat.mul_add]
    omega
  have hv : start + (i + (n * (start / n + 1) - start)) ≡ i [MOD n] := by
    have hsum : start + (i + (n * (start / n + 1) - start)) = i + n * (start / n + 1) := by omega
    rw [hsum]
    exact Nat.add_mul_mod_self_left ..
  refine ⟨i + (n * (start / n + 1) - start), ?_⟩
  intro k
  constructor
  · intro h
    exact Nat.ModEq.add_left_cancel' start (h.trans hv.symm)
  · intro h
    exact (h.add_left start).trans hv

/-- Without a wrap every party gets its share, or one turn more. -/
theorem straight_share :
    d / n ≤ (straight n start d).count i ∧ (straight n start d).count i ≤ d / n + 1 := by
  obtain ⟨v, hv⟩ := exists_residue (n := n) start i
  rw [count_straight]
  simp only [hv, Nat.count_modEq_card d (NeZero.pos n)]
  split_ifs <;> omega

theorem straight_balanced : (straight n start d).count i ≤ (straight n start d).count j + 1 := by
  have hi : (straight n start d).count i ≤ d / n + 1 := straight_share.2
  have hj : d / n ≤ (straight n start d).count j := straight_share.1
  exact hi.trans (Nat.add_le_add_right hj 1)

theorem turns_balanced (hstart : start < m) :
    (turns m n start d).count i ≤ (turns m n start d).count j + 1 + (start + d) / m := by
  induction d using Nat.strongRecOn generalizing start with
  | ind d ih =>
    by_cases hend : start + d ≤ m
    · rw [turns_eq_straight hend]
      exact straight_balanced.trans (Nat.le_add_right ..)
    · -- The first lap ends after `m - start` turns.
      obtain ⟨e, rfl⟩ : ∃ e, d = m - start + e := ⟨d - (m - start), by omega⟩
      have hlap : start + (m - start) = m := by omega
      have hsplit : turns m n start (m - start + e) =
          straight n start (m - start) ++ turns m n 0 e := by
        rw [turns_append, turns_eq_straight (by omega), hlap, turns_lap]
      have hfirst : (straight n start (m - start)).count i ≤
          (straight n start (m - start)).count j + 1 := straight_balanced
      have hlater : (turns m n 0 e).count i ≤ (turns m n 0 e).count j + 1 + (0 + e) / m :=
        ih e (by omega) (by omega)
      have hwraps : (start + (m - start + e)) / m = e / m + 1 := by
        rw [← Nat.add_assoc, hlap, Nat.add_div_left e (by omega)]
      rw [Nat.zero_add] at hlater
      rw [hsplit, List.count_append, List.count_append, hwraps]
      omega

end Lib
