import SheepCoro.Lib.Chain
import SheepCoro.Lib.Update

/-!
# Stacks that are drained

Waiting nodes are pushed onto a stack by a compare and exchange of its head.
A drain exchanges the head for null and then walks over what it has captured,
one node after the other, while new nodes are pushed.

`Drain` says which lists hang off the head and off the cursors of the drains,
and that a node is waiting exactly when it is on one of them, and only on
one.  The rules are those of the four steps: a store to a link that nobody
will read (`frame`), a push, a drain and the walk to the next node (`take`).
The state after a step is described by what it is, so that a machine with
other words for its positions can use them.
-/

namespace Lib

variable {ι δ : Type*}

/-- The stack under `head`, and what each drain has still to visit. -/
structure Drain (head : Option ι) (next : ι → Option ι) (cursor : δ → Option ι)
    (waiting : ι → Prop) (stack : List ι) (captured : δ → List ι) : Prop where
  stack_chain : Chain next head stack
  captured_chain : ∀ d, Chain next (cursor d) (captured d)
  waiting_iff : ∀ i, waiting i ↔ i ∈ stack ∨ ∃ d, i ∈ captured d
  stack_disjoint : ∀ d i, i ∈ captured d → i ∉ stack
  captured_disjoint : ∀ d d' i, i ∈ captured d → i ∈ captured d' → d = d'

namespace Drain

variable {head : Option ι} {next next' : ι → Option ι} {cursor cursor' : δ → Option ι}
  {waiting waiting' : ι → Prop} {stack : List ι} {captured : δ → List ι} {i a : ι} {d : δ}

/-- Nobody waits. -/
theorem init (hcur : ∀ d, cursor d = none) (hwait : ∀ i, ¬ waiting i) :
    Drain none next cursor waiting [] fun _ => [] where
  stack_chain := rfl
  captured_chain d := hcur d
  waiting_iff i := by simp [hwait i]
  stack_disjoint d i h := by simp at h
  captured_disjoint d d' i h := by simp at h

/-- The head, the cursors, who is waiting and their links are kept. -/
theorem frame (h : Drain head next cursor waiting stack captured)
    (hcur : ∀ d, cursor' d = cursor d) (hnext : ∀ i, waiting i → next' i = next i)
    (hwait : ∀ i, waiting' i ↔ waiting i) : Drain head next' cursor' waiting' stack captured where
  stack_chain := h.stack_chain.congr fun i hi => hnext i ((h.waiting_iff i).mpr (.inl hi))
  captured_chain d := by
    rw [hcur]
    exact (h.captured_chain d).congr fun i hi => hnext i ((h.waiting_iff i).mpr (.inr ⟨d, hi⟩))
  waiting_iff i := (hwait i).trans (h.waiting_iff i)
  stack_disjoint := h.stack_disjoint
  captured_disjoint := h.captured_disjoint

/-- A node whose link holds the head is pushed. -/
theorem push (h : Drain head next cursor waiting stack captured) (hi : ¬ waiting i)
    (hnext : next i = head) (hwait : ∀ j, waiting' j ↔ j = i ∨ waiting j) :
    Drain (some i) next cursor waiting' (i :: stack) captured where
  stack_chain := by
    refine ⟨rfl, ?_⟩
    rw [hnext]
    exact h.stack_chain
  captured_chain := h.captured_chain
  waiting_iff j := by rw [hwait, h.waiting_iff, List.mem_cons, or_assoc]
  stack_disjoint d j hj hmem := by
    rcases List.mem_cons.mp hmem with rfl | hmem
    · exact hi ((h.waiting_iff j).mpr (.inr ⟨d, hj⟩))
    · exact h.stack_disjoint d j hj hmem
  captured_disjoint := h.captured_disjoint

variable [DecidableEq δ]

/-- The stack becomes what `d` has captured. -/
theorem drain (h : Drain head next cursor waiting stack captured) (hd : cursor d = none)
    (hself : cursor' d = head) (hothers : ∀ e, e ≠ d → cursor' e = cursor e) :
    Drain none next cursor' waiting [] (Function.update captured d stack) where
  stack_chain := rfl
  captured_chain e := by
    by_cases he : e = d
    · subst he
      rw [hself, Function.update_self]
      exact h.stack_chain
    · rw [hothers e he, Function.update_of_ne he]
      exact h.captured_chain e
  waiting_iff i := by
    have hempty : captured d = [] := by
      have hc := h.captured_chain d
      rwa [hd, Chain.none_iff] at hc
    rw [h.waiting_iff]
    constructor
    · rintro (hi | ⟨e, he⟩)
      · exact .inr ⟨d, by rwa [Function.update_self]⟩
      · have hed : e ≠ d := by
          rintro rfl
          simp [hempty] at he
        exact .inr ⟨e, by rwa [Function.update_of_ne hed]⟩
    · rintro (hi | ⟨e, he⟩)
      · simp at hi
      · by_cases hed : e = d
        · subst hed
          rw [Function.update_self] at he
          exact .inl he
        · rw [Function.update_of_ne hed] at he
          exact .inr ⟨e, he⟩
  stack_disjoint _ _ _ := List.not_mem_nil
  captured_disjoint e e' i he he' := by
    by_cases hed : e = d
    · by_cases hed' : e' = d
      · rw [hed, hed']
      · subst hed
        rw [Function.update_self] at he
        rw [Function.update_of_ne hed'] at he'
        exact absurd he (h.stack_disjoint e' i he')
    · rw [Function.update_of_ne hed] at he
      by_cases hed' : e' = d
      · subst hed'
        rw [Function.update_self] at he'
        exact absurd he' (h.stack_disjoint e i he)
      · rw [Function.update_of_ne hed'] at he'
        exact h.captured_disjoint e e' i he he'

/-- The walk of `d` leaves its first node, which stops waiting. -/
theorem take (h : Drain head next cursor waiting stack captured) (hd : cursor d = some a)
    (hself : cursor' d = next a) (hothers : ∀ e, e ≠ d → cursor' e = cursor e)
    (hwait : ∀ j, waiting' j ↔ j ≠ a ∧ waiting j) :
    Drain head next cursor' waiting' stack (Function.update captured d (captured d).tail) := by
  have hc := h.captured_chain d
  rw [hd] at hc
  obtain ⟨rest, hrest, htail⟩ := Chain.some_iff.mp hc
  rw [hrest, List.tail_cons]
  have hnot : a ∉ rest := by
    have hnodup := hc.nodup
    rw [hrest] at hnodup
    exact (List.nodup_cons.mp hnodup).1
  have hmem : a ∈ captured d := by simp [hrest]
  -- What is still captured was captured before, and is not the node that left.
  have hsub : ∀ e j, j ∈ Function.update captured d rest e → j ∈ captured e ∧ j ≠ a := by
    intro e j hj
    by_cases he : e = d
    · subst he
      rw [Function.update_self] at hj
      exact ⟨by simp [hrest, hj], fun hja => hnot (hja ▸ hj)⟩
    · rw [Function.update_of_ne he] at hj
      exact ⟨hj, fun hja => he (h.captured_disjoint e d a (hja ▸ hj) hmem)⟩
  refine ⟨h.stack_chain, ?_, ?_, ?_, ?_⟩
  · intro e
    by_cases he : e = d
    · subst he
      rw [hself, Function.update_self]
      exact htail
    · rw [hothers e he, Function.update_of_ne he]
      exact h.captured_chain e
  · intro j
    rw [hwait, h.waiting_iff]
    constructor
    · rintro ⟨hja, hj | ⟨e, he⟩⟩
      · exact .inl hj
      · refine .inr ⟨e, ?_⟩
        by_cases hed : e = d
        · subst hed
          rw [hrest, List.mem_cons] at he
          rw [Function.update_self]
          exact he.resolve_left hja
        · rwa [Function.update_of_ne hed]
    · rintro (hj | ⟨e, he⟩)
      · refine ⟨?_, .inl hj⟩
        rintro rfl
        exact h.stack_disjoint d j hmem hj
      · obtain ⟨hold, hja⟩ := hsub e j he
        exact ⟨hja, .inr ⟨e, hold⟩⟩
  · intro e j hj
    exact h.stack_disjoint e j (hsub e j hj).1
  · intro e e' j hj hj'
    exact h.captured_disjoint e e' j (hsub e j hj).1 (hsub e' j hj').1

end Drain

end Lib
