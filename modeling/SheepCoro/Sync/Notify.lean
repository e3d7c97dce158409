import SheepCoro.Sync.Order

/-!
# No notification is lost

A waiter whose predicate is false puts itself on the list of the condition
variable while it still holds the lock, so whoever takes the lock afterwards
and notifies finds it there.  Only a notification takes it off again, and
everybody who was taken off is passed to `mutex_awaiter::register_lock` once.

The waiter may be notified, woken and even pushed onto the mutex while its own
`unlock` has not returned, and it may park again from inside of `resume()`.
None of this matters to the lines of `Queues`: they change in `register_cv`,
in the critical sections of the two notifications and in the loop of
`notify_all`.
-/

namespace SheepCoro.Sync

open Lib

variable {ι κ ν : Type} [DecidableEq ι] [DecidableEq κ] [DecidableEq ν]

/-- The awaiter that a step puts on the list of `k`. -/
def linked (k : κ) (s : State ι κ ν) : Label ι κ ν → List ι
  | .registerCv i =>
    match s.kind i with
    | .cvAwaiter k' _ => if k' = k then [i] else []
    | .mutexAwaiter => []
  | _ => []

/-- The awaiter on which the loop in the `notify_all` of `m` calls `wake_up`
in a step. -/
def woken (m : ν) (s : State ι κ ν) : Label ι κ ν → List ι
  | .notifyNext m' => if m' = m then (s.curHead m).toList else []
  | _ => []

/-- A notification that takes the waiter `i` off the list of `k`. -/
def Takes (s : State ι κ ν) (i : ι) (k : κ) : Label ι κ ν → Prop
  | .notifyOne k' => k' = k ∧ s.cvHead k = some i
  | .notifyAll _ k' => k' = k
  | _ => False

section Lemmas

variable {s s' : State ι κ ν} {q : Queues ι κ ν} {a : Label ι κ ν} {i : ι} {k : κ} {m : ν}

section

omit [DecidableEq ι] [DecidableEq κ] [DecidableEq ν]

theorem Refines.mem_waiters (h : Refines s q) : i ∈ q.waiters k ↔ s.loc i = .parked k := by
  obtain ⟨o, stack, resume, line, h, -⟩ := h
  exact (h.places.parked_iff i k).symm

theorem Refines.cv_chain (h : Refines s q) (k : κ) : Chain s.next (s.cvHead k) (q.waiters k) := by
  obtain ⟨o, stack, resume, line, h, -⟩ := h
  exact h.links.cv_chain k

theorem Refines.batch_chain (h : Refines s q) (m : ν) :
    Chain s.next (s.curHead m) (q.batch m) := by
  obtain ⟨o, stack, resume, line, h, -⟩ := h
  exact h.links.cap_chain m

end

/-- Only `register_cv` makes the list of a condition variable longer, at its
end. -/
theorem Queues.waiters_suffix : (q.after s a).waiters k <:+ q.waiters k ++ linked k s a := by
  cases a with
  | registerCv i =>
    simp only [Queues.after, linked]
    cases s.kind i with
    | mutexAwaiter => simp
    | cvAwaiter k' hasCond =>
      by_cases hk : k' = k
      · subst hk
        simp
      · simp [hk, Function.update_of_ne (Ne.symm hk)]
  | notifyOne k' =>
    simp only [Queues.after, linked, List.append_nil]
    by_cases hk : k = k'
    · subst hk
      simp only [Function.update_self]
      exact List.tail_suffix _
    · simp [Function.update_of_ne hk]
  | notifyAll m k' =>
    simp only [Queues.after, linked, List.append_nil]
    by_cases hk : k = k'
    · subst hk
      simp only [Function.update_self]
      exact List.nil_suffix
    · simp [Function.update_of_ne hk]
  | lock | tryLock | registerLock | enter | callUnlock | unlock | wait | eval | notifyNext
  | reuse => simp [Queues.after, linked]

/-- A parked waiter stays parked, or the step is a notification that takes
it. -/
theorem Refines.parked_step (h : Refines s q) (hs : Sync.step s a = some s')
    (hi : s.loc i = .parked k) : s'.loc i = .parked k ∨ Takes s i k a := by
  have hmem := h.mem_waiters.mpr hi
  have hstays : i ∈ (q.after s a).waiters k → s'.loc i = .parked k ∨ Takes s i k a := fun hm =>
    .inl ((h.step hs).mem_waiters.mp hm)
  cases a with
  | registerCv j =>
    apply hstays
    simp only [Queues.after]
    split
    · next k' _ _ =>
      dsimp only
      by_cases hk : k = k'
      · subst hk
        rw [Function.update_self]
        exact List.mem_append_left _ hmem
      · rwa [Function.update_of_ne hk]
    · exact hmem
  | notifyOne k' =>
    by_cases hk : k = k'
    · subst hk
      have hchain := h.cv_chain k
      cases hq : q.waiters k with
      | nil => simp [hq] at hmem
      | cons x xs =>
        rw [hq] at hchain hmem
        rcases List.mem_cons.mp hmem with hx | hx
        · rw [hx]
          exact .inr ⟨rfl, hchain.1⟩
        · apply hstays
          simpa [Queues.after, hq] using hx
    · apply hstays
      simpa only [Queues.after, Function.update_of_ne hk] using hmem
  | notifyAll m k' =>
    by_cases hk : k = k'
    · exact .inr hk.symm
    · apply hstays
      simpa only [Queues.after, Function.update_of_ne hk] using hmem
  | lock | tryLock | registerLock | enter | callUnlock | unlock | wait | eval | notifyNext
  | reuse => exact hstays hmem

/-- What is left of a batch after a step.  Another `notify_all` of the same
caller would begin a new one. -/
theorem Refines.batch_step (h : Refines s q) (ha : ∀ k, a ≠ .notifyAll m k) :
    q.batch m ++ [] = woken m s a ++ (q.after s a).batch m := by
  rw [List.append_nil]
  cases a with
  | notifyNext m' =>
    by_cases hm : m = m'
    · subst hm
      have hchain := h.batch_chain m
      cases hq : q.batch m with
      | nil =>
        rw [hq] at hchain
        simp [woken, Queues.after, hq, show s.curHead m = none from hchain]
      | cons x xs =>
        rw [hq] at hchain
        simp [woken, Queues.after, hq, hchain.1]
    · simp [woken, Queues.after, Function.update_of_ne hm, Ne.symm hm]
  | notifyAll m' k =>
    have hm : m ≠ m' := by
      rintro rfl
      exact ha k rfl
    simp [woken, Queues.after, Function.update_of_ne hm]
  | registerCv i =>
    simp only [woken, Queues.after, List.nil_append]
    split <;> rfl
  | lock | tryLock | registerLock | enter | callUnlock | unlock | wait | eval | notifyOne
  | reuse => simp [woken, Queues.after]

/-- The waiter keeps the lock until it has called `register_cv`. -/
theorem Good.registering_step (h : Good s) (hi : s.hold i = .registerCv)
    (hs : Sync.step s a = some s') : s'.hold i = .registerCv ∨ a = .registerCv i := by
  have hne : s.hold i ≠ .none := by simp [hi]
  rcases h.holder_frame hne hs with ⟨hhold, -⟩ | hown
  · exact .inl (hhold.trans hi)
  · -- Every other step of the holder starts at another position.
    cases a with
    | registerCv j =>
      cases hown
      exact .inr rfl
    | enter j | callUnlock j | unlock j | wait j | eval j =>
      cases hown
      simp [Sync.step, Sync.unlock, hi] at hs
    | lock | tryLock | registerLock | notifyOne | notifyAll | notifyNext | reuse =>
      exact hown.elim

/-! ## Over a run -/

section Runs

variable {t u : State ι κ ν} {bs : List (Label ι κ ν)} {xs : List ι}

/-- Whoever has found its predicate false keeps the lock until it calls
`register_cv`. -/
theorem registering_run (h : (machine ι κ ν).Reachable s) (hs : step s (.eval i false) = some t)
    (hrun : (machine ι κ ν).run t bs = some u) (hnot : .registerCv i ∉ bs) :
    u.hold i = .registerCv := by
  have hnext : (machine ι κ ν).Reachable t := h.next (a := .eval i false) hs
  have hfalse : t.hold i = .registerCv := by
    simp only [step, Bool.false_eq_true, if_false] at hs
    split at hs <;> cases hs <;> simp [State.setHold]
  have huntil := Machine.run_until (P := fun s => s.hold i = .registerCv)
    (E := fun _ a => a = .registerCv i)
    (fun s a s' hr hP hs => (good_of_reachable hr).registering_step hP hs) hnext hfalse hrun
  rcases huntil with hlast | ⟨pre, a, post, v, rfl, -, -, rfl⟩
  · exact hlast
  · exact absurd (List.mem_append_right _ (List.mem_cons_self ..)) hnot

theorem Refines.links (h : Refines s q) (hs : Sync.step s (.registerCv i) = some t) :
    ∃ k xs, t.loc i = .parked k ∧ Chain s.next (s.cvHead k) xs ∧
      Chain t.next (t.cvHead k) (xs ++ [i]) ∧ t.hold i = .readResumeList := by
  have hnew := h.step hs
  simp only [Sync.step] at hs
  split at hs
  · next k hasCond hhold hkind =>
    cases hs
    simp only [Queues.after, hkind] at hnew
    have hchain := hnew.cv_chain k
    have hmem := hnew.mem_waiters (i := i) (k := k)
    simp only [Function.update_self] at hchain hmem
    refine ⟨k, q.waiters k, hmem.mp (by simp), h.cv_chain k, hchain, ?_⟩
    rw [(registerCv_hold k).2, Function.update_self]
  · cases hs

/-- A parked waiter stays parked until a notification takes it. -/
theorem parked_run (h : (machine ι κ ν).Reachable s) (hi : s.loc i = .parked k)
    (hrun : (machine ι κ ν).run s bs = some u) :
    u.loc i = .parked k ∨ ∃ pre a post v, bs = pre ++ a :: post ∧
      (machine ι κ ν).run s pre = some v ∧ v.loc i = .parked k ∧ Takes v i k a := by
  refine Machine.run_until (P := fun s => s.loc i = .parked k) (E := fun s a => Takes s i k a)
    (fun s a s' hr hP hs => ?_) h hi hrun
  obtain ⟨q, hq⟩ := (good_of_reachable hr).refines
  exact hq.parked_step hs hP

/-- The list of a condition variable is the end of what was linked. -/
theorem waiters_run (h : Init s) (hrun : (machine ι κ ν).run s bs = some u) :
    ∃ xs, Chain u.next (u.cvHead k) xs ∧ (∀ i, i ∈ xs ↔ u.loc i = .parked k) ∧
      xs <:+ (machine ι κ ν).shown (linked k) s bs := by
  have hnew : ∃ q, Refines s q ∧ q.waiters k = [] := by
    obtain ⟨q, hq⟩ := (Init.good h).refines
    refine ⟨q, hq, ?_⟩
    have hchain := hq.cv_chain k
    rwa [h.cvHead k, Chain.none_iff] at hchain
  obtain ⟨xs, ⟨q, hq, rfl⟩, hsuffix⟩ := Machine.shown_suffix (f := linked k)
    (C := fun s xs => ∃ q, Refines s q ∧ q.waiters k = xs)
    (fun s a s' _ _ ⟨q, hq, hxs⟩ hs =>
      ⟨_, ⟨q.after s a, hq.step hs, rfl⟩, hxs ▸ Queues.waiters_suffix⟩) (.init h) hnew hrun
  exact ⟨q.waiters k, hq.cv_chain k, fun i => hq.mem_waiters, hsuffix⟩

theorem Refines.notifyOne (h : Refines s q) (hxs : Chain s.next (s.cvHead k) (i :: xs))
    (hs : Sync.step s (.notifyOne k) = some t) :
    Chain t.next (t.cvHead k) xs ∧ t.loc = Function.update s.loc i .load := by
  have hnew := (h.step hs).cv_chain k
  have hwaiters : q.waiters k = i :: xs := (h.cv_chain k).unique hxs
  simp only [Queues.after, Function.update_self, hwaiters, List.tail_cons] at hnew
  refine ⟨hnew, ?_⟩
  cases hs
  simp only [Sync.notifyOne, hxs.1]
  rfl

/-- The loop of `notify_all` wakes everybody that it took, one after the
other. -/
theorem notifyAll_run (h : (machine ι κ ν).Reachable s) (hxs : Chain s.next (s.cvHead k) xs)
    (hs : step s (.notifyAll m k) = some t) (hrun : (machine ι κ ν).run t bs = some u)
    (hnot : ∀ k', .notifyAll m k' ∉ bs) :
    ∃ rest, xs = (machine ι κ ν).shown (woken m) t bs ++ rest ∧
      Chain u.next (u.curHead m) rest := by
  obtain ⟨q, hq⟩ := (good_of_reachable h).refines
  have hbatch : (q.after s (.notifyAll m k)).batch m = xs := by
    simp [Queues.after, (hq.cv_chain k).unique hxs]
  have hturn : ∀ (s : State ι κ ν) a s' xs, (∀ k', a ≠ .notifyAll m k') →
      (∃ q, Refines s q ∧ q.batch m = xs) → step s a = some s' →
      ∃ ys, (∃ q, Refines s' q ∧ q.batch m = ys) ∧ xs ++ [] = woken m s a ++ ys := by
    rintro s a s' xs hP ⟨q, hq, rfl⟩ hs
    exact ⟨_, ⟨q.after s a, hq.step hs, rfl⟩, hq.batch_step hP⟩
  obtain ⟨rest, ⟨r, hr, rfl⟩, hconserved⟩ := Machine.shown_conserve
    (P := fun a => ∀ k', a ≠ .notifyAll m k') (f := fun _ _ => []) (g := woken m)
    (C := fun s xs => ∃ q, Refines s q ∧ q.batch m = xs)
    (fun s a s' xs _ hP hC hs => hturn s a s' xs hP hC hs)
    (h.next (a := .notifyAll m k) hs) (fun a ha k' heq => hnot k' (heq ▸ ha))
    ⟨_, hq.step hs, hbatch⟩ hrun
  refine ⟨r.batch m, ?_, hr.batch_chain m⟩
  rw [← hconserved, Machine.shown_nil, List.append_nil]

end Runs

end Lemmas

/-- What a run that has come from `s₀` to `s` guarantees to the waiters. -/
structure Delivers (s₀ : State ι κ ν) (as : List (Label ι κ ν)) (s : State ι κ ν) : Prop where
  /-- Whoever has found its predicate false keeps the lock until it calls
  `register_cv`, whatever happens in between. -/
  keeps_lock : ∀ i t, step s (.eval i false) = some t →
    ∀ bs u, (machine ι κ ν).run t bs = some u → .registerCv i ∉ bs → u.hold i = .registerCv
  /-- `register_cv` links the waiter at the end of the list, and it has not
  released the lock. -/
  links : ∀ i t, step s (.registerCv i) = some t → ∃ k xs, t.loc i = .parked k ∧
    Chain s.next (s.cvHead k) xs ∧ Chain t.next (t.cvHead k) (xs ++ [i]) ∧
    t.hold i = .readResumeList
  /-- A parked waiter stays parked until a notification takes it. -/
  stays : ∀ i k, s.loc i = .parked k → ∀ bs u, (machine ι κ ν).run s bs = some u →
    u.loc i = .parked k ∨ ∃ pre a post v, bs = pre ++ a :: post ∧
      (machine ι κ ν).run s pre = some v ∧ v.loc i = .parked k ∧ Takes v i k a
  /-- The list of a condition variable has the waiters that are parked on it,
  in the order in which they were linked. -/
  oldest_first : ∀ k, ∃ xs, Chain s.next (s.cvHead k) xs ∧
    (∀ i, i ∈ xs ↔ s.loc i = .parked k) ∧ xs <:+ (machine ι κ ν).shown (linked k) s₀ as
  /-- `notify_one` takes the first waiter and nobody else, and passes it to
  `register_lock`. -/
  one : ∀ k i xs t, Chain s.next (s.cvHead k) (i :: xs) → step s (.notifyOne k) = some t →
    Chain t.next (t.cvHead k) xs ∧ t.loc = Function.update s.loc i .load
  /-- `notify_all` takes every waiter.  Its loop wakes each of them once, in
  their order, until it is through. -/
  all : ∀ m k xs t, Chain s.next (s.cvHead k) xs → step s (.notifyAll m k) = some t →
    t.cvHead k = none ∧ xs.Nodup ∧ ∀ bs u, (machine ι κ ν).run t bs = some u →
      (∀ k', .notifyAll m k' ∉ bs) →
      ∃ rest, xs = (machine ι κ ν).shown (woken m) t bs ++ rest ∧
        Chain u.next (u.curHead m) rest
  /-- A turn of the loop passes the waiter to `register_lock`. -/
  wakes : ∀ m i t, s.curHead m = some i → step s (.notifyNext m) = some t →
    t.loc = Function.update s.loc i .load

/-- No notification of a condition variable is lost, in whatever order the
waiters, the notifiers and the owners of the lock take their steps. -/
theorem no_lost_notification (s₀ s : State ι κ ν) (as : List (Label ι κ ν)) (h₀ : Init s₀)
    (hrun : (machine ι κ ν).run s₀ as = some s) : Delivers s₀ as s := by
  have hreach : (machine ι κ ν).Reachable s := Machine.Reachable.run (.init h₀) hrun
  obtain ⟨q, hq⟩ := (good_of_reachable hreach).refines
  refine ⟨?_, ?_, ?_, ?_, ?_, ?_, ?_⟩
  · intro i t hs bs u hu hnot
    exact registering_run hreach hs hu hnot
  · intro i t hs
    exact hq.links hs
  · intro i k hi bs u hu
    exact parked_run hreach hi hu
  · intro k
    exact waiters_run h₀ hrun
  · intro k i xs t hxs hs
    exact hq.notifyOne hxs hs
  · intro m k xs t hxs hs
    refine ⟨?_, hxs.nodup, fun bs u hu hnot => notifyAll_run hreach hxs hs hu hnot⟩
    obtain ⟨_, ⟨⟩⟩ := Option.ite_none_right_eq_some.mp hs
    simp [notifyAll]
  · intro m i t hm hs
    simp only [step, hm, Option.some.injEq] at hs
    subst hs
    rfl

/-- Two coroutines find their predicates false and park; the second one has
not released the lock yet. -/
def twoWaiters : List (Label Nat Unit Unit) :=
  [.tryLock 0, .wait 0 () true, .eval 0 false, .registerCv 0, .unlock 0, .unlock 0, .tryLock 1,
    .wait 1 () true, .eval 1 false, .registerCv 1]

/-- `notify_one` takes the one that parked first. -/
theorem no_lost_notification_two_waiters :
    ∃ s, (machine Nat Unit Unit).run emptyState twoWaiters = some s ∧
      s.hold 1 = .readResumeList ∧ ∀ t, step s (.notifyOne ()) = some t →
        t.loc 0 = .load ∧ t.loc 1 = .parked () := by
  have hrun : ((machine Nat Unit Unit).run emptyState twoWaiters).map (fun s =>
      decide (s.hold 1 = .readResumeList ∧ s.cvHead () = some 0 ∧ s.next 0 = some 1 ∧
        s.next 1 = none ∧ s.loc 1 = .parked ())) = some true := by decide
  obtain ⟨s, hs, htest⟩ := Option.map_eq_some_iff.mp hrun
  obtain ⟨hhold, hhead, hnext, hlast, hloc⟩ := of_decide_eq_true htest
  refine ⟨s, hs, hhold, fun t ht => ?_⟩
  have hchain : Chain s.next (s.cvHead ()) [0, 1] := ⟨hhead, hnext, hlast⟩
  have hdelivers := no_lost_notification emptyState s twoWaiters init_emptyState hs
  obtain ⟨-, htaken⟩ := hdelivers.one () 0 [1] t hchain ht
  rw [htaken]
  exact ⟨Function.update_self .., (Function.update_of_ne (by decide) ..).trans hloc⟩

end SheepCoro.Sync
