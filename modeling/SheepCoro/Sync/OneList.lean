import SheepCoro.Sync.Notify
import SheepCoro.Sync.Order

/-!
# One link, one list

An awaiter has one link, and four kinds of lists use it: the list of a
condition variable, what a `notify_all` took away, the stack of the mutex and
its resume list.  Every awaiter is on at most one of them at any time, and the
lists keep the order in which the awaiters came.

`Lined` says where the lines of `Queues` come from: the waiters of a condition
variable are the last ones that registered there, a batch is a stretch of such
registrations, and the line for the lock is the end of the pushes.
-/

namespace SheepCoro.Sync

open Lib

variable {ι κ ν : Type} [DecidableEq ι] [DecidableEq κ] [DecidableEq ν]

/-- The lists that an awaiter can be on. -/
inductive Which (κ ν : Type)
  /-- The stack of the mutex, from `m_state`. -/
  | stack
  /-- The resume list, with the part that `unlock` is about to put there. -/
  | resume
  /-- From `m_head` of a condition variable. -/
  | cv (k : κ)
  /-- From `cur_head` of a `notify_all`. -/
  | batch (m : ν)

/-- The waiters that a run has put on the list of `k`, in the order of the
calls of `register_cv`. -/
def registered (k : κ) (s : State ι κ ν) (as : List (Label ι κ ν)) : List ι :=
  (machine ι κ ν).shown (linked k) s as

/-- Which awaiters are on which list after a run from `s₀` to `s`. -/
structure OneList (s₀ : State ι κ ν) (as : List (Label ι κ ν)) (s : State ι κ ν)
    (lists : Which κ ν → List ι) : Prop where
  /-- No list has a cycle. -/
  nodup : ∀ w, (lists w).Nodup
  /-- No two lists share an awaiter. -/
  disjoint : ∀ w w' i, i ∈ lists w → i ∈ lists w' → w = w'
  stack_chain : Chain s.next s.state.head (lists .stack)
  cv_chain : ∀ k, Chain s.next (s.cvHead k) (lists (.cv k))
  batch_chain : ∀ m, Chain s.next (s.curHead m) (lists (.batch m))
  head_none_iff : ∀ k, s.cvHead k = none ↔ s.cvTail k = none
  tail_last : ∀ k t, s.cvTail k = some t →
    (lists (.cv k)).getLast? = some t ∧ s.next t = none
  cv_order : ∀ k, lists (.cv k) <:+ registered k s₀ as
  batch_order : ∀ m, lists (.batch m) = [] ∨ ∃ k, lists (.batch m) <:+: registered k s₀ as
  /-- What the pointers reach on the side of the holder, and the line for the
  lock that this is with the stack behind it. -/
  lock_order : ∃ o line, (∀ i, s.hold i ≠ .none ↔ o = some i) ∧
    ResumeSide s.next s.resumeList (phase s o) (lists .resume) ∧
    InOrder s.next (phase s o) (lists .resume) line ∧
    line ++ (lists .stack).reverse <:+ pushes s₀ as

section Lemmas

variable {s₀ s s' : State ι κ ν} {as : List (Label ι κ ν)} {q : Queues ι κ ν}

/-- The lines are in the order of registration. -/
structure Lined (s₀ : State ι κ ν) (as : List (Label ι κ ν)) (q : Queues ι κ ν) : Prop where
  waiters : ∀ k, q.waiters k <:+ registered k s₀ as
  batch : ∀ m, q.batch m = [] ∨ ∃ k, q.batch m <:+: registered k s₀ as
  lock : q.lock <:+ pushes s₀ as

/-- A batch is what it was, less its first waiter, or a whole list of waiters. -/
theorem Queues.batch_after (s : State ι κ ν) (q : Queues ι κ ν) (a : Label ι κ ν) (m : ν) :
    (q.after s a).batch m <:+ q.batch m ∨ ∃ k, (q.after s a).batch m = q.waiters k := by
  cases a with
  | notifyAll m' k =>
    simp only [Queues.after]
    by_cases hm : m = m'
    · rw [hm, Function.update_self]
      exact .inr ⟨k, rfl⟩
    · rw [Function.update_of_ne hm]
      exact .inl (List.suffix_refl _)
  | notifyNext m' =>
    simp only [Queues.after]
    by_cases hm : m = m'
    · rw [hm, Function.update_self]
      exact .inl (List.tail_suffix _)
    · rw [Function.update_of_ne hm]
      exact .inl (List.suffix_refl _)
  | registerCv i =>
    simp only [Queues.after]
    split <;> exact .inl (List.suffix_refl _)
  | lock | tryLock | registerLock | enter | callUnlock | unlock | wait | eval | notifyOne
  | reuse => exact .inl (List.suffix_refl _)

theorem Lined.step {a : Label ι κ ν} (h : Lined s₀ as q)
    (hrun : (machine ι κ ν).run s₀ as = some s) (hq : Refines s q)
    (hs : Sync.step s a = some s') : Lined s₀ (as ++ [a]) (q.after s a) := by
  have hregistered : ∀ k, registered k s₀ (as ++ [a]) = registered k s₀ as ++ linked k s a :=
    fun k => Machine.shown_concat hrun hs
  have hpushes : pushes s₀ (as ++ [a]) = pushes s₀ as ++ pushed s a :=
    Machine.shown_concat hrun hs
  have hkept : ∀ {xs k}, xs <:+: registered k s₀ as → xs <:+: registered k s₀ (as ++ [a]) := by
    intro xs k hxs
    rw [hregistered]
    exact hxs.trans (List.prefix_append ..).isInfix
  refine ⟨fun k => ?_, fun m => ?_, ?_⟩
  · rw [hregistered]
    apply Queues.waiters_suffix.trans
    obtain ⟨pre, hpre⟩ := h.waiters k
    exact ⟨pre, by rw [← hpre, List.append_assoc]⟩
  · rcases q.batch_after s a m with hsuffix | ⟨k, hk⟩
    · rcases h.batch m with hnil | ⟨k, hk⟩
      · rw [hnil] at hsuffix
        exact .inl (List.suffix_nil.mp hsuffix)
      · exact .inr ⟨k, hkept (hsuffix.isInfix.trans hk)⟩
    · exact .inr ⟨k, hkept (hk ▸ (h.waiters k).isInfix)⟩
  · rw [hpushes]
    obtain ⟨pre, hpre⟩ := h.lock
    refine ⟨pre ++ resumed s a, ?_⟩
    rw [List.append_assoc, ← hq.lock_step, ← hpre, List.append_assoc]

/-- The lines of a run. -/
theorem lined_run (h₀ : Init s₀) (hrun : (machine ι κ ν).run s₀ as = some s) :
    ∃ q, Refines s q ∧ Lined s₀ as q := by
  refine Machine.path_invariant (M := machine ι κ ν)
    (I := fun as s => ∃ q, Refines s q ∧ Lined s₀ as q) ?_ ?_ hrun
  · obtain ⟨q, hq⟩ := (Init.good h₀).refines
    refine ⟨q, hq, fun k => ?_, fun m => .inl ?_, ?_⟩
    · have hchain := hq.cv_chain k
      rw [h₀.cvHead k, Chain.none_iff] at hchain
      rw [hchain]
      exact List.nil_suffix
    · have hchain := hq.batch_chain m
      rwa [h₀.curHead m, Chain.none_iff] at hchain
    · have hnil : q.lock = [] := by
        apply List.eq_nil_iff_forall_not_mem.mpr
        intro i hi
        have hqueued := hq.mem_lock.mp hi
        rw [h₀.loc i] at hqueued
        cases hqueued
      rw [hnil]
      exact List.nil_suffix
  · intro as s a s' hrun h hs
    obtain ⟨q, hq, hlined⟩ := h
    exact ⟨q.after s a, hq.step hs, hlined.step hrun hq hs⟩

/-- The four kinds of lists under their names. -/
def listOf (stack resume : List ι) (q : Queues ι κ ν) : Which κ ν → List ι
  | .stack => stack
  | .resume => resume
  | .cv k => q.waiters k
  | .batch m => q.batch m

/-- Where an awaiter of a list is. -/
def Which.loc : Which κ ν → Loc ι κ
  | .stack | .resume => .queued
  | .cv k => .parked k
  | .batch _ => .captured

omit [DecidableEq ι] [DecidableEq κ] [DecidableEq ν] in
theorem Places.loc_eq {loc : ι → Loc ι κ} {stack resume : List ι} {i : ι} {w : Which κ ν}
    (h : Places loc stack resume q.waiters q.batch) (hi : i ∈ listOf stack resume q w) :
    loc i = w.loc := by
  cases w with
  | stack => exact (h.queued_iff i).mpr (.inl hi)
  | resume => exact (h.queued_iff i).mpr (.inr hi)
  | cv k => exact (h.parked_iff i k).mpr hi
  | batch m => exact (h.captured_iff i).mpr ⟨m, hi⟩

omit [DecidableEq ι] [DecidableEq κ] [DecidableEq ν] in
/-- An awaiter is on one list. -/
theorem Places.which_unique {loc : ι → Loc ι κ} {stack resume : List ι} {i : ι}
    {w w' : Which κ ν} (h : Places loc stack resume q.waiters q.batch)
    (hi : i ∈ listOf stack resume q w) (hi' : i ∈ listOf stack resume q w') : w = w' := by
  have hloc : (w.loc : Loc ι κ) = w'.loc := (h.loc_eq hi).symm.trans (h.loc_eq hi')
  cases w with
  | stack =>
    cases w' with
    | stack => rfl
    | resume => exact absurd hi' (h.stack_disjoint i hi)
    | cv | batch => cases hloc
  | resume =>
    cases w' with
    | stack => exact absurd hi (h.stack_disjoint i hi')
    | resume => rfl
    | cv | batch => cases hloc
  | cv k =>
    cases w' with
    | cv k' =>
      cases hloc
      rfl
    | stack | resume | batch => cases hloc
  | batch m =>
    cases w' with
    | batch m' => rw [h.caps_disjoint i m m' hi hi']
    | stack | resume | cv => cases hloc

end Lemmas

/-- Over every run of a new mutex and new condition variables, every awaiter is
on at most one list, the lists are what the pointers reach, and they are in
the order in which the awaiters came. -/
theorem one_link_one_list (s₀ s : State ι κ ν) (as : List (Label ι κ ν)) (h₀ : Init s₀)
    (hrun : (machine ι κ ν).run s₀ as = some s) : ∃ lists, OneList s₀ as s lists := by
  obtain ⟨q, ⟨o, stack, resume, line, h, horder, hlock⟩, hlined⟩ := lined_run h₀ hrun
  refine ⟨listOf stack resume q, ?_, ?_, h.links.stack_chain, h.links.cv_chain,
    h.links.cap_chain, ?_, ?_, hlined.waiters, hlined.batch,
    o, line, h.hold_iff, h.side, horder, hlock ▸ hlined.lock⟩
  · intro w
    cases w with
    | stack => exact h.links.stack_chain.nodup
    | resume => exact h.side.nodup
    | cv k => exact (h.links.cv_chain k).nodup
    | batch m => exact (h.links.cap_chain m).nodup
  · intro w w' i hi hi'
    exact h.places.which_unique hi hi'
  · intro k
    rw [h.links.cv_tail k]
    exact (h.links.cv_chain k).head_eq_none_iff
  · intro k t ht
    rw [h.links.cv_tail k] at ht
    exact ⟨ht, (h.links.cv_chain k).next_getLast ht⟩

/-- The first of two waiters is notified and pushed while the second one, which
is on the list of the condition variable, still unlocks. -/
theorem one_link_one_list_two_waiters :
    ∃ s, (machine Nat Unit Unit).run emptyState
        (twoWaiters ++ [.notifyOne (), .registerLock 0 false, .registerLock 0 false]) = some s ∧
      ∃ lists, OneList emptyState
        (twoWaiters ++ [.notifyOne (), .registerLock 0 false, .registerLock 0 false]) s lists ∧
        lists .stack = [0] ∧ lists (.cv ()) = [1] := by
  have hrun : ((machine Nat Unit Unit).run emptyState
      (twoWaiters ++ [.notifyOne (), .registerLock 0 false, .registerLock 0 false])).map (fun s =>
      decide (s.state = .locked (some 0) ∧ s.next 0 = none ∧ s.cvHead () = some 1 ∧
        s.next 1 = none)) = some true := by decide
  obtain ⟨s, hs, htest⟩ := Option.map_eq_some_iff.mp hrun
  obtain ⟨hstate, hnext, hhead, hlast⟩ := of_decide_eq_true htest
  obtain ⟨lists, h⟩ := one_link_one_list emptyState s _ init_emptyState hs
  have hstack : Chain s.next s.state.head [0] := ⟨by rw [hstate]; rfl, hnext⟩
  have hcv : Chain s.next (s.cvHead ()) [1] := ⟨hhead, hlast⟩
  exact ⟨s, hs, lists, h, h.stack_chain.unique hstack, (h.cv_chain ()).unique hcv⟩

end SheepCoro.Sync
