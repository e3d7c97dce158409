import SheepCoro.Sync.Frame
import SheepCoro.Lib.History

/-!
# The lock is handed on in the order of the pushes

Awaiters arrive on a stack, and `unlock` reverses the stack in batches onto a
second list while others go on pushing.  `Queues.lock` is the line that this
amounts to.  A push appends to it and a hand-off takes its front
(`Refines.lock_step`), so over a run the awaiters that were pushed are the
ones that were resumed followed by the ones that still wait, in this order.

The word is not `nolocked` as long as somebody is in the line, and only a word
that is `nolocked` can be taken by somebody who is not.
-/

namespace SheepCoro.Sync

open Lib

variable {ι κ ν : Type} [DecidableEq ι] [DecidableEq κ] [DecidableEq ν]

/-- The awaiters that a run pushes onto `m_state`, in the order of the
pushes. -/
def pushes (s : State ι κ ν) (as : List (Label ι κ ν)) : List ι :=
  (machine ι κ ν).shown pushed s as

/-- The awaiters that `unlock` resumes in a run, in the order of the calls. -/
def grants (s : State ι κ ν) (as : List (Label ι κ ν)) : List ι :=
  (machine ι κ ν).shown resumed s as

section Lemmas

variable {s s' : State ι κ ν} {q : Queues ι κ ν} {a : Label ι κ ν} {i : ι}

/-- What enters the line and what leaves it in a step. -/
theorem Refines.lock_step (h : Refines s q) :
    q.lock ++ pushed s a = resumed s a ++ (q.after s a).lock := by
  cases a with
  | registerLock i spurious => rfl
  | unlock i =>
    cases hi : s.hold i with
    | handOff t =>
      obtain ⟨rest, hlock, -⟩ := h.handOff hi
      simp [pushed, resumed, Queues.after, hi, hlock]
    | none | granted | inside | evalWait | evalResume | registerCv | readResumeList | casUnlock
    | exchange | reverse | popResumeList => simp [pushed, resumed, Queues.after, hi]
  | registerCv i =>
    simp only [pushed, resumed, Queues.after, List.append_nil, List.nil_append]
    split <;> rfl
  | lock | tryLock | enter | callUnlock | wait | eval | notifyOne | notifyAll | notifyNext
  | reuse => simp [pushed, resumed, Queues.after]

omit [DecidableEq ι] [DecidableEq κ] [DecidableEq ν]

theorem Refines.mem_lock (h : Refines s q) : i ∈ q.lock ↔ s.loc i = .queued := by
  obtain ⟨o, stack, resume, line, h, horder, hlock⟩ := h
  rw [h.places.queued_iff, hlock, List.mem_append, List.mem_reverse, horder.perm.mem_iff]
  exact or_comm

theorem Refines.lock_nodup (h : Refines s q) : q.lock.Nodup := by
  obtain ⟨o, stack, resume, line, h, horder, hlock⟩ := h
  rw [hlock]
  refine List.Nodup.append (horder.perm.nodup_iff.mpr h.side.nodup)
    (List.nodup_reverse.mpr h.links.stack_chain.nodup) ?_
  intro j hline hstack
  exact h.places.stack_disjoint j (List.mem_reverse.mp hstack) (horder.perm.mem_iff.mp hline)

/-- Nobody takes a lock that somebody waits for. -/
theorem Good.not_free (h : Good s) (hi : s.loc i = .queued) : s.state ≠ .nolocked := by
  obtain ⟨o, stack, resume, cvs, caps, h⟩ := h
  intro hfree
  have ho := h.free_iff.mp hfree
  subst ho
  obtain ⟨rfl, rfl, -⟩ := h.free
  simpa using (h.places.queued_iff i).mp hi

end Lemmas

/-- Over every run of a new mutex the awaiters that were pushed onto the word
are the ones that `unlock` has resumed, followed by the ones that still wait,
in the order of the pushes.  As long as somebody waits, `try_lock` fails and
`register_lock` grants nothing. -/
theorem grants_fifo (s₀ s : State ι κ ν) (as : List (Label ι κ ν)) (h₀ : Init s₀)
    (hrun : (machine ι κ ν).run s₀ as = some s) :
    ∃ line, pushes s₀ as = grants s₀ as ++ line ∧ line.Nodup ∧
      (∀ i, i ∈ line ↔ s.loc i = .queued) ∧
      (line ≠ [] → ∀ j, (∀ s', step s (.tryLock j) = some s' → s' = s) ∧
        ∀ spurious s', step s (.registerLock j spurious) = some s' → s'.hold = s.hold) := by
  have hreach : (machine ι κ ν).Reachable s₀ := .init h₀
  have hnew : ∃ q, Refines s₀ q ∧ q.lock = [] := by
    obtain ⟨q, hq⟩ := (Init.good h₀).refines
    refine ⟨q, hq, List.eq_nil_iff_forall_not_mem.mpr fun i hi => ?_⟩
    have hqueued := hq.mem_lock.mp hi
    rw [h₀.loc i] at hqueued
    cases hqueued
  obtain ⟨line, ⟨q, hq, rfl⟩, hconserved⟩ := Machine.shown_conserve
    (P := fun _ => True) (f := pushed) (g := resumed)
    (C := fun s line => ∃ q, Refines s q ∧ q.lock = line)
    (fun s a s' _ _ _ ⟨q, hq, hline⟩ hs =>
      ⟨_, ⟨q.after s a, hq.step hs, rfl⟩, hline ▸ hq.lock_step⟩)
    hreach (fun _ _ => trivial) hnew hrun
  refine ⟨q.lock, hconserved, hq.lock_nodup, fun i => hq.mem_lock, fun hne j => ?_⟩
  obtain ⟨i, hi⟩ := List.exists_mem_of_ne_nil _ hne
  have hstate := hq.good.not_free (hq.mem_lock.mp hi)
  refine ⟨fun s' hs => ?_, fun spurious s' hs => registerLock_hold hs hstate⟩
  obtain ⟨_, hs⟩ := Option.ite_none_right_eq_some.mp hs
  rw [if_neg hstate] at hs
  exact (Option.some.inj hs).symm

/-- Two coroutines are pushed while the first one holds the lock, a third one
after the stack was taken, and the first one comes back at the end. -/
def twoBatches : List (Label Nat Unit Unit) :=
  [.tryLock 0, .lock 1, .registerLock 1 false, .registerLock 1 false, .lock 2,
    .registerLock 2 false, .registerLock 2 false, .callUnlock 0, .unlock 0, .unlock 0, .unlock 0,
    .unlock 0, .unlock 0, .unlock 0, .unlock 0, .lock 3, .registerLock 3 false,
    .registerLock 3 false, .enter 1, .callUnlock 1, .unlock 1, .unlock 1, .unlock 1, .enter 2,
    .callUnlock 2, .unlock 2, .unlock 2, .unlock 2, .unlock 2, .unlock 2, .unlock 2, .lock 0,
    .registerLock 0 false, .registerLock 0 false]

theorem grants_fifo_two_batches :
    pushes emptyState twoBatches = [1, 2, 3, 0] ∧ grants emptyState twoBatches = [1, 2, 3] ∧
      ∃ s, (machine Nat Unit Unit).run emptyState twoBatches = some s ∧ s.loc 0 = .queued := by
  have hpushes : pushes emptyState twoBatches = [1, 2, 3, 0] := by decide
  have hgrants : grants emptyState twoBatches = [1, 2, 3] := by decide
  have hsome : ((machine Nat Unit Unit).run emptyState twoBatches).isSome = true := by decide
  obtain ⟨s, hs⟩ := Option.isSome_iff_exists.mp hsome
  refine ⟨hpushes, hgrants, s, hs, ?_⟩
  obtain ⟨line, hline, -, hqueued, -⟩ := grants_fifo emptyState s twoBatches init_emptyState hs
  rw [hpushes, hgrants] at hline
  have hlast : line = [0] := by simpa using hline.symm
  exact (hqueued 0).mp (by simp [hlast])

end SheepCoro.Sync
