import SheepCoro.Lib.History

/-!
# A machine that follows another one

A relation between the states of two machines, where a step of the lower one
shows the steps that the upper one takes with it: none when it stutters.  Runs
are then runs of the upper machine (`simulation`), and what the upper one shows
can be read off the lower one (`shown_simulation`).
-/

namespace Lib.Machine

universe u v w x y

variable {σ : Type u} {α : Type v} {τ : Type w} {β : Type x} {γ : Type y} {M : Machine σ α}
  {N : Machine τ β} {f : σ → α → List β} {R : σ → τ → Prop} {s₀ s : σ} {t₀ : τ} {as : List α}

theorem shown_append {g : τ → β → List γ} {t : τ} {bs cs : List β} (hrun : N.run t₀ bs = some t) :
    N.shown g t₀ (bs ++ cs) = N.shown g t₀ bs ++ N.shown g t cs := by
  induction bs generalizing t₀ with
  | nil =>
    cases hrun
    rfl
  | cons b bs ih =>
    obtain ⟨u, hu, hrest⟩ := run_cons.mp hrun
    simp only [List.cons_append, shown, hu]
    rw [ih hrest, List.append_assoc]

theorem simulation
    (hstep : ∀ s a s' t, N.Reachable t → R s t → M.step s a = some s' →
      ∃ t', N.run t (f s a) = some t' ∧ R s' t')
    (ht : N.Reachable t₀) (hR : R s₀ t₀) (hrun : M.run s₀ as = some s) :
    ∃ t, N.run t₀ (M.shown f s₀ as) = some t ∧ R s t := by
  induction as generalizing s₀ t₀ with
  | nil =>
    cases hrun
    exact ⟨t₀, rfl, hR⟩
  | cons a as ih =>
    obtain ⟨s₁, hs₁, hrest⟩ := run_cons.mp hrun
    obtain ⟨t₁, ht₁, hR₁⟩ := hstep s₀ a s₁ t₀ ht hR hs₁
    obtain ⟨t, hlater, hRt⟩ := ih (ht.run ht₁) hR₁ hrest
    refine ⟨t, ?_, hRt⟩
    simp only [shown, hs₁]
    exact run_append.mpr ⟨t₁, ht₁, hlater⟩

theorem shown_simulation {g : τ → β → List γ} {g' : σ → α → List γ}
    (hstep : ∀ s a s' t, N.Reachable t → R s t → M.step s a = some s' →
      ∃ t', N.run t (f s a) = some t' ∧ R s' t')
    (hshow : ∀ s a s' t, N.Reachable t → R s t → M.step s a = some s' →
      N.shown g t (f s a) = g' s a)
    (ht : N.Reachable t₀) (hR : R s₀ t₀) (hrun : M.run s₀ as = some s) :
    N.shown g t₀ (M.shown f s₀ as) = M.shown g' s₀ as := by
  induction as generalizing s₀ t₀ with
  | nil => rfl
  | cons a as ih =>
    obtain ⟨s₁, hs₁, hrest⟩ := run_cons.mp hrun
    obtain ⟨t₁, ht₁, hR₁⟩ := hstep s₀ a s₁ t₀ ht hR hs₁
    simp only [shown, hs₁]
    rw [shown_append ht₁, hshow s₀ a s₁ t₀ ht hR hs₁, ih (ht.run ht₁) hR₁ hrest]

end Lib.Machine
