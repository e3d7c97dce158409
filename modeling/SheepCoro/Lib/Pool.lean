import SheepCoro.Lib.Update
import Mathlib.Data.List.Nodup

/-!
# Sharing out a pool

The resources of a pool are either in its free list or with one holder each.
`Shares all free held` says that nothing is missing, and nothing is there
twice.  Lending the first free one (`Shares.lend`) and giving one back at the
end (`Shares.back`) keep it so.
-/

namespace Lib

variable {ι κ : Type*}

/-- The resources that meet `all` are shared out between the free list and
the holders. -/
structure Shares (all : κ → Prop) (free : List κ) (held : ι → Option κ) : Prop where
  nodup : free.Nodup
  cover : ∀ k, all k ↔ k ∈ free ∨ ∃ i, held i = some k
  apart : ∀ i k, held i = some k → k ∉ free
  single : ∀ i j k, held i = some k → held j = some k → i = j

namespace Shares

variable {all : κ → Prop} {free : List κ} {held : ι → Option κ} {i : ι} {k : κ}

/-- Everything is free. -/
theorem init (hnodup : free.Nodup) (hall : ∀ k, all k ↔ k ∈ free) :
    Shares all free (fun _ : ι => none) where
  nodup := hnodup
  cover k := by simp [hall]
  apart i k h := by cases h
  single i j k h := by cases h

variable [DecidableEq ι]

/-- The first free one is lent to somebody who has none. -/
theorem lend (h : Shares all (k :: free) held) (hi : held i = none) :
    Shares all free (Function.update held i (some k)) := by
  obtain ⟨hk, hnodup⟩ := List.nodup_cons.mp h.nodup
  refine ⟨hnodup, ?_, ?_, ?_⟩
  · intro x
    rw [h.cover, List.mem_cons]
    constructor
    · rintro ((rfl | hx) | ⟨j, hj⟩)
      · exact .inr ⟨i, Function.update_self ..⟩
      · exact .inl hx
      · have hji : j ≠ i := by
          rintro rfl
          rw [hi] at hj
          cases hj
        exact .inr ⟨j, by rw [Function.update_of_ne hji, hj]⟩
    · rintro (hx | ⟨j, hj⟩)
      · exact .inl (.inr hx)
      · rcases update_eq_iff.mp hj with ⟨_, hnew⟩ | ⟨_, hold⟩
        · exact .inl (.inl (Option.some.inj hnew).symm)
        · exact .inr ⟨j, hold⟩
  · intro j x hj
    rcases update_eq_iff.mp hj with ⟨_, hnew⟩ | ⟨_, hold⟩
    · rwa [← Option.some.inj hnew]
    · exact fun hx => h.apart j x hold (List.mem_cons_of_mem _ hx)
  · intro j l x hj hl
    rcases update_eq_iff.mp hj with ⟨hji, hjk⟩ | ⟨_, hj'⟩
    · rcases update_eq_iff.mp hl with ⟨hli, _⟩ | ⟨_, hl'⟩
      · rw [hji, hli]
      · cases hjk
        exact absurd (List.mem_cons_self ..) (h.apart l k hl')
    · rcases update_eq_iff.mp hl with ⟨_, hlk⟩ | ⟨_, hl'⟩
      · cases hlk
        exact absurd (List.mem_cons_self ..) (h.apart j k hj')
      · exact h.single j l x hj' hl'

/-- A holder gives its own one back. -/
theorem back (h : Shares all free held) (hi : held i = some k) :
    Shares all (free ++ [k]) (Function.update held i none) := by
  have hk := h.apart i k hi
  refine ⟨?_, ?_, ?_, ?_⟩
  · rw [List.nodup_append]
    refine ⟨h.nodup, List.nodup_singleton k, ?_⟩
    rintro x hx y hy rfl
    rw [List.mem_singleton] at hy
    exact hk (hy ▸ hx)
  · intro x
    rw [h.cover, List.mem_append, List.mem_singleton]
    constructor
    · rintro (hx | ⟨j, hj⟩)
      · exact .inl (.inl hx)
      · by_cases hji : j = i
        · subst hji
          rw [hi] at hj
          exact .inl (.inr (Option.some.inj hj).symm)
        · exact .inr ⟨j, by rw [Function.update_of_ne hji, hj]⟩
    · rintro ((hx | rfl) | ⟨j, hj⟩)
      · exact .inl hx
      · exact .inr ⟨i, hi⟩
      · exact .inr ⟨j, of_update_eq hj (by simp)⟩
  · intro j x hj hx
    have hold := of_update_eq hj (by simp)
    rcases List.mem_append.mp hx with hx | hx
    · exact h.apart j x hold hx
    · rw [List.mem_singleton] at hx
      subst hx
      have hji := h.single j i x hold hi
      subst hji
      rw [Function.update_self] at hj
      cases hj
  · intro j l x hj hl
    exact h.single j l x (of_update_eq hj (by simp)) (of_update_eq hl (by simp))

end Shares

end Lib
