import SheepCoro.Sync.Exclusion
import SheepCoro.Lib.Update

/-!
# What a critical section may rely on

The steps that a program on top of the mutex does not take itself are the
steps of the awaiters and of `unlock`.  `Passive` says what they leave alone:
they do not change what an awaiter is, they do not take the lock away from a
coroutine that runs with it, and a coroutine comes to run with the lock only
if it was running with it or if the first step of its `resume()` says so.

The holder itself moves only in its own steps (`Good.holder_frame`).

`Clear k` says that nobody is on the list of a condition variable and nobody
is on the way there.  It stays as long as no predicate of a wait is found
false and nobody waits without one.
-/

namespace SheepCoro.Sync

open Lib

variable {ι κ ν : Type} [DecidableEq ι] [DecidableEq κ] [DecidableEq ν]

/-- The coroutine runs with the lock, or is about to. -/
def Hold.Runs (x : Hold ι) : Prop :=
  x = .granted ∨ x = .inside

structure Passive (s s' : State ι κ ν) : Prop where
  kind : s'.kind = s.kind
  runs : ∀ j, (s'.hold j).Runs → (s.hold j).Runs ∨ s'.hold j = (s.kind j).resume
  inside : ∀ j, s.hold j = .inside → s'.hold j = .inside

variable {s s' : State ι κ ν} {i : ι}

/-! ## The two loops of the mutex -/

/-- A turn of `register_lock` moves the awaiter, or it grants the free
lock. -/
inductive RegisterStep (s : State ι κ ν) (i : ι) : State ι κ ν → Prop
  | move {s' : State ι κ ν} {p : Loc ι κ} (hp : ∀ k, p ≠ .parked k)
    (hloc : s'.loc = Function.update s.loc i p) (hhold : s'.hold = s.hold)
    (hkind : s'.kind = s.kind) : RegisterStep s i s'
  | grant (hfree : s.state = .nolocked) :
    RegisterStep s i ({ s with state := .locked none }.grant i)

omit [DecidableEq κ] [DecidableEq ν] in
theorem registerLock_cases {spurious : Bool} (hs : registerLock s i spurious = some s') :
    RegisterStep s i s' := by
  unfold registerLock at hs
  split at hs
  · cases hs
    exact .move (by simp) rfl rfl rfl
  · next expected _ =>
    split_ifs at hs with hcond
    · cases expected with
      | nolocked =>
        cases hs
        exact .grant hcond.1
      | locked head =>
        cases hs
        exact .move (by simp) rfl rfl rfl
    · cases hs
      exact .move (by simp) rfl rfl rfl
  · cases hs

/-- A step of `unlock` moves the holder to a position that is not outside of
`unlock`, or it hands the lock off. -/
inductive UnlockStep (s : State ι κ ν) (i : ι) : State ι κ ν → Prop
  | move {s' : State ι κ ν} {x : Hold ι} (hi : s.hold i ≠ .none) (hp : ¬ (s.hold i).Present)
    (hx : ¬ x.Present) (hhold : s'.hold = Function.update s.hold i x) (hloc : s'.loc = s.loc)
    (hkind : s'.kind = s.kind) : UnlockStep s i s'
  | handOff {t : ι} (hi : s.hold i = .handOff t) :
    UnlockStep s i ((s.setHold i .none).grant t)

omit [DecidableEq κ] [DecidableEq ν] in
theorem unlock_cases (hs : unlock s i = some s') : UnlockStep s i s' := by
  cases hi : s.hold i with
  | readResumeList =>
    simp only [Sync.unlock, hi] at hs
    split at hs <;> cases hs <;> exact .move (by simp [hi]) (by rw [hi]; exact id) id rfl rfl rfl
  | casUnlock =>
    simp only [Sync.unlock, hi] at hs
    split_ifs at hs <;> cases hs <;>
      exact .move (by simp [hi]) (by rw [hi]; exact id) id rfl rfl rfl
  | exchange =>
    simp only [Sync.unlock, hi] at hs
    split at hs <;> cases hs
    exact .move (by simp [hi]) (by rw [hi]; exact id) id rfl rfl rfl
  | reverse a t =>
    simp only [Sync.unlock, hi] at hs
    split at hs <;> cases hs <;> exact .move (by simp [hi]) (by rw [hi]; exact id) id rfl rfl rfl
  | popResumeList t =>
    simp only [Sync.unlock, hi, Option.some.injEq] at hs
    subst hs
    exact .move (by simp [hi]) (by rw [hi]; exact id) id rfl rfl rfl
  | handOff t =>
    simp only [Sync.unlock, hi, Option.some.injEq] at hs
    subst hs
    exact .handOff hi
  | none | granted | inside | evalWait | evalResume | registerCv =>
    simp only [Sync.unlock, hi] at hs
    cases hs

omit [DecidableEq ι] in
theorem Hold.Runs.present {x : Hold ι} (h : x.Runs) : x.Present := by
  rcases h with rfl | rfl <;> trivial

/-! ## Steps that a critical section can rely on -/

omit [DecidableEq ι] [DecidableEq κ] [DecidableEq ν] in
/-- The holder does not change. -/
theorem Passive.of_hold (hkind : s'.kind = s.kind) (hhold : s'.hold = s.hold) :
    Passive s s' := by
  refine ⟨hkind, fun j hj => .inl ?_, fun j hj => ?_⟩
  · rwa [hhold] at hj
  · rwa [hhold]

section

omit [DecidableEq κ] [DecidableEq ν]

/-- The only holder, which is not running with the lock, moves on. -/
theorem Passive.of_setHold {x : Hold ι} (h : Good s) (hkind : s'.kind = s.kind)
    (hhold : s'.hold = Function.update s.hold i x) (hi : s.hold i ≠ .none)
    (hni : s.hold i ≠ .inside) (hx : x.Runs → (s.hold i).Runs ∨ x = (s.kind i).resume) :
    Passive s s' := by
  refine ⟨hkind, fun j hj => ?_, fun j hj => ?_⟩
  · rw [hhold] at hj ⊢
    by_cases hji : j = i
    · subst hji
      rw [Function.update_self] at hj ⊢
      exact hx hj
    · rw [Function.update_of_ne hji] at hj
      exact .inl hj
  · have hij : i = j := h.unique hi (by simp [hj])
    subst hij
    exact absurd hj hni

theorem passive_registerLock {spurious : Bool} (h : Good s)
    (hs : registerLock s i spurious = some s') : Passive s s' := by
  cases registerLock_cases hs with
  | move _ _ hhold hkind => exact Passive.of_hold hkind hhold
  | grant hfree =>
    -- The lock was free, so nobody ran with it.
    have hnobody := h.free_iff.mp hfree
    refine ⟨rfl, fun j hj => ?_, fun j hj => ?_⟩
    · by_cases hji : j = i
      · subst hji
        right
        simp [State.grant, State.setHold]
      · simp only [State.grant, State.setHold, State.setLoc, Function.update_of_ne hji] at hj
        exact .inl hj
    · rw [hnobody j] at hj
      cases hj

theorem passive_unlock (h : Good s) (hs : unlock s i = some s') : Passive s s' := by
  cases unlock_cases hs with
  | move hi hp hx hhold _ hkind =>
    refine Passive.of_setHold h hkind hhold hi (fun hinside => ?_) fun hr => absurd hr.present hx
    rw [hinside] at hp
    exact hp trivial
  | @handOff t hi =>
    refine ⟨rfl, fun j hj => ?_, fun j hj => ?_⟩
    · by_cases hjt : j = t
      · subst hjt
        right
        simp [State.grant, State.setHold, State.setLoc]
      · left
        simp only [State.grant, State.setHold, State.setLoc, Function.update_of_ne hjt] at hj
        by_cases hji : j = i
        · subst hji
          rw [Function.update_self] at hj
          simp [Hold.Runs] at hj
        · rwa [Function.update_of_ne hji] at hj
    · have hij : i = j := h.unique (by simp [hi]) (by simp [hj])
      subst hij
      rw [hi] at hj
      cases hj

end

omit [DecidableEq ν] in
theorem registerCv_hold (k : κ) : (registerCv s i k).kind = s.kind ∧
    (registerCv s i k).hold = Function.update s.hold i .readResumeList := by
  unfold registerCv
  dsimp only
  split
  · exact ⟨rfl, rfl⟩
  · exact ⟨rfl, rfl⟩

omit [DecidableEq ν] in
theorem registerCv_loc (k : κ) :
    (registerCv s i k).loc = Function.update s.loc i (.parked k) := by
  unfold registerCv
  dsimp only
  split <;> rfl

theorem passive_registerCv (h : Good s) (hs : step s (.registerCv i) = some s') :
    Passive s s' := by
  simp only [Sync.step] at hs
  split at hs
  · next k hasCond hhold hkind =>
    cases hs
    obtain ⟨hk, hh⟩ := registerCv_hold (s := s) (i := i) k
    exact Passive.of_setHold h hk hh (by simp [hhold]) (by simp [hhold]) (by simp [Hold.Runs])
  · cases hs

theorem passive_enter (h : Good s) (hs : step s (.enter i) = some s') : Passive s s' := by
  obtain ⟨hhold, ⟨⟩⟩ := Option.ite_none_right_eq_some.mp hs
  refine Passive.of_setHold h rfl rfl (by simp [hhold]) (by simp [hhold]) fun _ => .inl ?_
  rw [hhold]
  exact .inl rfl

theorem passive_reuse {p : Option ι} (hs : step s (.reuse i p) = some s') : Passive s s' := by
  obtain ⟨_, ⟨⟩⟩ := Option.ite_none_right_eq_some.mp hs
  exact Passive.of_hold rfl rfl

/-! ## The holder -/

omit [DecidableEq κ] [DecidableEq ν] in
/-- `register_lock` grants the lock only when the word is `nolocked`. -/
theorem registerLock_hold {spurious : Bool} (hs : registerLock s i spurious = some s')
    (hstate : s.state ≠ .nolocked) : s'.hold = s.hold := by
  cases registerLock_cases hs with
  | move _ _ hhold => exact hhold
  | grant hfree => exact absurd hfree hstate

omit [DecidableEq ν] in
theorem notifyOne_hold (k : κ) :
    (notifyOne s k).kind = s.kind ∧ (notifyOne s k).hold = s.hold := by
  unfold notifyOne
  split
  · exact ⟨rfl, rfl⟩
  · exact ⟨rfl, rfl⟩

/-- How a coroutine comes to a position outside of `unlock`. -/
inductive Arrives (s : State ι κ ν) (j : ι) : Label ι κ ν → Hold ι → Prop
  | stays {a : Label ι κ ν} : Arrives s j a (s.hold j)
  | inside {a : Label ι κ ν} : Arrives s j a .inside
  | granted {a : Label ι κ ν} : Arrives s j a (s.kind j).resume
  | wait {k : κ} {hasCond : Bool} :
      Arrives s j (.wait j k hasCond) (if hasCond then .evalWait else .registerCv)
  | evalWait {value : Bool} : s.hold j = .evalWait →
      Arrives s j (.eval j value) (if value then .inside else .registerCv)
  | evalResume {value : Bool} : s.hold j = .evalResume →
      Arrives s j (.eval j value) (if value then .granted else .registerCv)

section

omit [DecidableEq κ] [DecidableEq ν]

theorem Arrives.setHold {a : Label ι κ ν} {x : Hold ι} {j : ι}
    (hj : (Function.update s.hold i x j).Present) (hx : x.Present → j = i → Arrives s j a x) :
    Arrives s j a (Function.update s.hold i x j) := by
  by_cases hji : j = i
  · subst hji
    rw [Function.update_self] at hj ⊢
    exact hx hj rfl
  · rw [Function.update_of_ne hji]
    exact .stays

theorem Arrives.grant {a : Label ι κ ν} {t j : ι} (hj : (s'.hold j).Present)
    (hhold : (s'.hold j).Present → j ≠ t → Arrives s j a (s'.hold j))
    (ht : s'.hold t = (s.kind t).resume) : Arrives s j a (s'.hold j) := by
  by_cases hjt : j = t
  · subst hjt
    rw [ht]
    exact .granted
  · exact hhold hj hjt

theorem arrives_unlock {j : ι} {a : Label ι κ ν} (hs : unlock s i = some s')
    (hj : (s'.hold j).Present) : Arrives s j a (s'.hold j) := by
  cases unlock_cases hs with
  | move _ _ hx hhold =>
    rw [hhold] at hj ⊢
    exact Arrives.setHold hj fun hp _ => absurd hp hx
  | @handOff t hi =>
    refine Arrives.grant (t := t) hj (fun hp hjt => ?_) ?_
    · simp only [State.grant, State.setHold, State.setLoc, Function.update_of_ne hjt] at hp ⊢
      exact Arrives.setHold hp fun hnone _ => hnone.elim
    · simp [State.grant, State.setHold, State.setLoc]

end

/-- The positions outside of `unlock` and the steps that lead to them. -/
theorem step_arrives {a : Label ι κ ν} {j : ι} (hs : step s a = some s')
    (hj : (s'.hold j).Present) : Arrives s j a (s'.hold j) := by
  cases step_cases hs with
  | lock | tryLockFails | notifyAll | notifyNext | reuse => exact .stays
  | tryLock | enter => exact Arrives.setHold hj fun _ _ => .inside
  | registerLock hreg =>
    cases registerLock_cases hreg with
    | move _ _ hhold =>
      rw [hhold]
      exact .stays
    | grant =>
      refine Arrives.setHold hj fun _ hji => ?_
      rw [← hji]
      exact .granted
  | callUnlock => exact Arrives.setHold hj fun hp _ => hp.elim
  | unlock hunlock => exact arrives_unlock hunlock hj
  | wait =>
    apply Arrives.setHold hj
    intro _ hji
    subst hji
    exact .wait
  | evalWait hhold =>
    apply Arrives.setHold hj
    intro _ hji
    subst hji
    exact .evalWait hhold
  | evalResume hhold =>
    apply Arrives.setHold hj
    intro _ hji
    subst hji
    exact .evalResume hhold
  | @registerCv i k =>
    rw [(registerCv_hold k).2] at hj ⊢
    exact Arrives.setHold hj fun hp _ => hp.elim
  | @notifyOne k =>
    rw [(notifyOne_hold k).2]
    exact .stays

/-- A coroutine comes to `register_cv` by waiting without a predicate or by
finding it false. -/
theorem step_registering {a : Label ι κ ν} {j : ι} (hs : step s a = some s')
    (hj : s'.hold j = .registerCv) :
    s.hold j = .registerCv ∨ (∃ k, a = .wait j k false) ∨ a = .eval j false := by
  have harrives := step_arrives (j := j) hs (by rw [hj]; trivial)
  generalize hx : s'.hold j = x at harrives
  rw [hj] at hx
  cases harrives with
  | stays => exact .inl hx.symm
  | inside => cases hx
  | granted =>
    cases hk : s.kind j with
    | mutexAwaiter =>
      rw [hk] at hx
      cases hx
    | cvAwaiter k hasCond =>
      rw [hk] at hx
      cases hasCond <;> cases hx
  | @wait k hasCond =>
    cases hasCond with
    | true => cases hx
    | false => exact .inr (.inl ⟨k, rfl⟩)
  | @evalWait value _ | @evalResume value _ =>
    cases value with
    | true => cases hx
    | false => exact .inr (.inr rfl)

/-- An awaiter becomes another one only in a `co_await` of its coroutine. -/
theorem step_kind {a : Label ι κ ν} {j : ι} (hs : step s a = some s') :
    s'.kind j = s.kind j ∨ a = .lock j ∧ s.hold j = .none ∧ s'.kind j = .mutexAwaiter ∨
      ∃ k hasCond, a = .wait j k hasCond ∧ s'.kind j = .cvAwaiter k hasCond := by
  cases step_cases hs with
  | @lock i _ hnone =>
    by_cases hji : j = i
    · subst hji
      exact .inr (.inl ⟨rfl, hnone, Function.update_self ..⟩)
    · exact .inl (Function.update_of_ne hji ..)
  | @wait i k hasCond =>
    by_cases hji : j = i
    · subst hji
      exact .inr (.inr ⟨k, hasCond, rfl, Function.update_self ..⟩)
    · exact .inl (Function.update_of_ne hji ..)
  | registerLock hreg =>
    cases registerLock_cases hreg with
    | move _ _ _ hkind => exact .inl (by rw [hkind])
    | grant => exact .inl rfl
  | unlock hunlock =>
    cases unlock_cases hunlock with
    | move _ _ _ _ _ hkind => exact .inl (by rw [hkind])
    | handOff => exact .inl rfl
  | @registerCv i k => exact .inl (by rw [(registerCv_hold k).1])
  | @notifyOne k => exact .inl (by rw [(notifyOne_hold k).1])
  | tryLock | tryLockFails | enter | callUnlock | evalWait | evalResume | notifyAll | notifyNext
  | reuse => exact .inl rfl

/-- Only `register_cv` puts an awaiter on the list of a condition variable. -/
theorem step_parked {a : Label ι κ ν} {j : ι} {k : κ} (hs : step s a = some s')
    (hj : s'.loc j = .parked k) : s.loc j = .parked k ∨
      a = .registerCv j ∧ s.hold j = .registerCv ∧ ∃ hasCond, s.kind j = .cvAwaiter k hasCond := by
  cases step_cases hs with
  | @registerCv i k' hasCond hhold hkind =>
    rw [registerCv_loc] at hj
    rcases update_eq_iff.mp hj with ⟨rfl, heq⟩ | ⟨_, hold⟩
    · cases heq
      exact .inr ⟨rfl, hhold, hasCond, hkind⟩
    · exact .inl hold
  | lock | notifyNext => exact .inl (of_update_eq hj (by simp))
  | registerLock hreg =>
    cases registerLock_cases hreg with
    | move hp hloc =>
      rw [hloc] at hj
      exact .inl (of_update_eq hj (hp k))
    | grant => exact .inl (of_update_eq hj (by simp))
  | unlock hunlock =>
    cases unlock_cases hunlock with
    | move _ _ _ _ hloc => exact .inl (hloc ▸ hj)
    | handOff => exact .inl (of_update_eq hj (by simp))
  | notifyOne =>
    unfold Sync.notifyOne at hj
    split at hj
    · exact .inl (of_update_eq hj (by simp))
    · exact .inl hj
  | notifyAll =>
    simp only [Sync.notifyAll] at hj
    split_ifs at hj
    exact .inl hj
  | tryLock | tryLockFails | enter | callUnlock | wait | evalWait | evalResume | reuse =>
    exact .inl hj

/-- The steps that the holder of the lock takes itself. -/
def Label.OfHolder (i : ι) : Label ι κ ν → Prop
  | .enter j | .callUnlock j | .unlock j | .wait j _ _ | .eval j _ | .registerCv j => j = i
  | _ => False

/-- The position of the holder changes only in its own steps. -/
theorem Good.holder_frame {a : Label ι κ ν} (h : Good s) (hi : s.hold i ≠ .none)
    (hs : Sync.step s a = some s') :
    s'.hold i = s.hold i ∧ s'.kind i = s.kind i ∨ a.OfHolder i := by
  have hstate : s.state ≠ .nolocked := fun hfree => hi (h.free_iff.mp hfree i)
  cases step_cases hs with
  | @lock j _ hnone =>
    have hij : i ≠ j := by
      rintro rfl
      exact hi hnone
    exact .inl ⟨rfl, Function.update_of_ne hij ..⟩
  | tryLock _ _ hfree => exact absurd hfree hstate
  | registerLock hreg =>
    exact .inl ⟨by rw [registerLock_hold hreg hstate], by rw [(passive_registerLock h hreg).kind]⟩
  | enter hhold | callUnlock hhold | wait hhold | evalWait hhold | evalResume hhold
  | registerCv hhold => exact .inr (h.unique (by simp [hhold]) hi)
  | unlock hunlock =>
    refine .inr (h.unique (fun hnone => ?_) hi)
    simp [Sync.unlock, hnone] at hunlock
  | @notifyOne k =>
    obtain ⟨hkind, hhold⟩ := notifyOne_hold (s := s) k
    exact .inl ⟨by rw [hhold], by rw [hkind]⟩
  | tryLockFails | notifyAll | notifyNext | reuse => exact .inl ⟨rfl, rfl⟩

/-! ## A condition variable that nobody waits on -/

/-- The awaiter is about to put itself on the list of `k`. -/
def Registering (s : State ι κ ν) (k : κ) (j : ι) : Prop :=
  s.hold j = .registerCv ∧ ∃ hasCond, s.kind j = .cvAwaiter k hasCond

structure Clear (k : κ) (s : State ι κ ν) : Prop where
  parked : ∀ j, s.loc j ≠ .parked k
  registering : ∀ j, ¬ Registering s k j

variable {k : κ}

/-- A step that does not send anybody to the list keeps it clear. -/
theorem Clear.step {l : Label ι κ ν} (h : Clear k s) (hs : step s l = some s')
    (hwait : ∀ i k', l ≠ .wait i k' false) (heval : ∀ i, l ≠ .eval i false) : Clear k s' := by
  refine ⟨fun j hj => ?_, fun j hj => ?_⟩
  · rcases step_parked hs hj with hold | ⟨-, hhold, hkind⟩
    · exact h.parked j hold
    · exact h.registering j ⟨hhold, hkind⟩
  · obtain ⟨hhold, hasCond, hk⟩ := hj
    rcases step_registering hs hhold with hold | ⟨k', rfl⟩ | rfl
    · rcases step_kind (j := j) hs with hkind | ⟨-, hnone, -⟩ | ⟨k', hasCond', rfl, -⟩
      · exact h.registering j ⟨hold, hasCond, hkind ▸ hk⟩
      · rw [hold] at hnone
        cases hnone
      · have hinside := (Option.ite_none_right_eq_some.mp hs).1
        rw [hold] at hinside
        cases hinside
    · exact hwait j k' rfl
    · exact heval j rfl

/-- `notify_all` empties the list. -/
theorem Clear.of_notifyAll {m : ν} (h : ∀ j, ¬ Registering s k j) :
    Clear k (notifyAll s m k) := by
  refine ⟨fun j hj => ?_, h⟩
  simp only [notifyAll] at hj
  split_ifs at hj with hparked
  exact hparked hj

omit [DecidableEq ι] [DecidableEq κ] [DecidableEq ν] in
/-- The list of a clear condition variable is empty. -/
theorem Clear.cvHead (h : Clear k s) (hg : Good s) : s.cvHead k = none := by
  obtain ⟨o, stack, resume, cvs, caps, hinv⟩ := hg
  have hnil : cvs k = [] := by
    rw [List.eq_nil_iff_forall_not_mem]
    intro j hj
    exact h.parked j ((hinv.places.parked_iff j k).mpr hj)
  have hchain := hinv.links.cv_chain k
  rw [hnil] at hchain
  exact hchain

/-! ## On the way to the lock -/

/-- The coroutine that takes the step itself, outside of its awaiter. -/
def Label.caller : Label ι κ ν → Option ι
  | .lock i | .tryLock i | .callUnlock i | .wait i _ _ => some i
  | _ => none

/-- The coroutine neither has the lock nor waits for anything. -/
def Outside (s : State ι κ ν) (i : ι) : Prop :=
  s.loc i = .none ∧ s.hold i = .none

/-- The awaiter is in `register_lock` or on a list of the mutex. -/
def Loc.Locks (l : Loc ι κ) : Prop :=
  l = .load ∨ (∃ state, l = .cas state) ∨ l = .queued

/-- The coroutine is in `co_await lock()`, or it has the lock from there. -/
def Acquires (s : State ι κ ν) (i : ι) : Prop :=
  s.kind i = .mutexAwaiter ∧
    ((s.loc i).Locks ∧ s.hold i = .none ∨ s.loc i = .none ∧ (s.hold i).Runs)

omit [DecidableEq κ] [DecidableEq ν] in
/-- A turn of `register_lock` stays in it, puts the awaiter on the stack or
takes the free lock. -/
theorem registerLock_places {spurious : Bool} (hs : registerLock s i spurious = some s') :
    (s'.loc i).Locks ∧ s'.hold i = s.hold i ∨
      s'.loc i = .none ∧ s'.hold i = (s.kind i).resume := by
  unfold registerLock at hs
  split at hs
  · cases hs
    exact .inl ⟨.inr (.inl ⟨_, Function.update_self ..⟩), rfl⟩
  · next expected _ =>
    split_ifs at hs
    · cases expected with
      | nolocked =>
        cases hs
        exact .inr ⟨Function.update_self .., Function.update_self ..⟩
      | locked head =>
        cases hs
        exact .inl ⟨.inr (.inr (Function.update_self ..)), rfl⟩
    · cases hs
      exact .inl ⟨.inl (Function.update_self ..), rfl⟩
  · cases hs

/-- Where a step leads a coroutine that is outside or on its way to the
lock. -/
inductive Onward (s s' : State ι κ ν) (i : ι) : Prop
  | stays (hloc : s'.loc i = s.loc i) (hhold : s'.hold i = s.hold i)
  | locks (hold : (s.loc i).Locks) (hnew : (s'.loc i).Locks) (hhold : s'.hold i = s.hold i)
  | grant (hold : (s.loc i).Locks) (hloc : s'.loc i = .none) (hhold : s'.hold i = (s.kind i).resume)
  | enter (hold : s.hold i = .granted) (hloc : s'.loc i = s.loc i) (hhold : s'.hold i = .inside)

omit [DecidableEq κ] [DecidableEq ν] in
theorem Onward.of_ne {j : ι} {l : Loc ι κ} {x : Hold ι} (hij : i ≠ j)
    (hloc : s'.loc = Function.update s.loc j l ∨ s'.loc = s.loc)
    (hhold : s'.hold = Function.update s.hold j x ∨ s'.hold = s.hold) : Onward s s' i := by
  refine .stays ?_ ?_
  · rcases hloc with heq | heq
    · rw [heq, Function.update_of_ne hij]
    · rw [heq]
  · rcases hhold with heq | heq
    · rw [heq, Function.update_of_ne hij]
    · rw [heq]

/-- A coroutine that neither waits on a condition variable nor unlocks, in a
step that it does not take itself. -/
theorem Good.onward {a : Label ι κ ν} (h : Good s) (hs : Sync.step s a = some s')
    (ha : a.caller ≠ some i) (hloc : (s.loc i).Locks ∨ s.loc i = .none)
    (hhold : s.hold i = .none ∨ (s.hold i).Runs) : Onward s s' i := by
  have hnot : ∀ {j x}, s.hold j = x → x ≠ .none → ¬ x.Runs → i ≠ j := by
    rintro j x hj hne hruns rfl
    rcases hhold with hnone | hr
    · exact hne (hj.symm.trans hnone)
    · exact hruns (hj ▸ hr)
  have hwaits : ∀ {j}, (∃ k, s.loc j = .parked k) ∨ s.loc j = .captured → i ≠ j := by
    rintro j hj rfl
    rcases hj with ⟨k, hj⟩ | hj <;> rw [hj] at hloc <;> simp [Loc.Locks] at hloc
  cases step_cases hs with
  | @lock j | @tryLock j =>
    have hij : i ≠ j := by
      rintro rfl
      exact ha rfl
    exact .stays (by simp [State.setLoc, State.setHold, hij])
      (by simp [State.setLoc, State.setHold, hij])
  | tryLockFails | reuse => exact .stays rfl rfl
  | @registerLock j _ _ hreg =>
    by_cases hij : i = j
    · subst hij
      have hlocks : (s.loc i).Locks := by
        refine hloc.resolve_right fun hnone => ?_
        simp [Sync.registerLock, hnone] at hreg
      rcases registerLock_places hreg with ⟨hl, hh⟩ | ⟨hl, hh⟩
      · exact .locks hlocks hl hh
      · exact .grant hlocks hl hh
    · cases registerLock_cases hreg with
      | move _ hl hh => exact .of_ne (x := .none) hij (.inl hl) (.inr hh)
      | grant => exact .of_ne hij (.inl rfl) (.inl rfl)
  | @enter j hj =>
    by_cases hij : i = j
    · subst hij
      exact .enter hj rfl (Function.update_self ..)
    · exact .of_ne (l := .none) hij (.inr rfl) (.inl rfl)
  | @callUnlock j | @wait j =>
    have hij : i ≠ j := by
      rintro rfl
      exact ha rfl
    exact .of_ne (l := .none) hij (.inr rfl) (.inl rfl)
  | @unlock j _ hunlock =>
    cases unlock_cases hunlock with
    | move hi hp _ hh hl =>
      refine .of_ne (l := .none) (hnot rfl hi fun hr => hp hr.present) (.inr hl) (.inl hh)
    | @handOff t hi =>
      have hij : i ≠ j := hnot hi (by simp) (by simp [Hold.Runs])
      by_cases hit : i = t
      · subst hit
        have hqueued := h.handOff_queued hi
        exact .grant (.inr (.inr hqueued)) (Function.update_self ..) (Function.update_self ..)
      · exact .stays (Function.update_of_ne hit ..)
          ((Function.update_of_ne hit ..).trans (Function.update_of_ne hij ..))
  | evalWait hj | evalResume hj =>
    exact .of_ne (l := .none) (hnot hj (by simp) (by simp [Hold.Runs])) (.inr rfl) (.inl rfl)
  | registerCv hj =>
    exact .of_ne (hnot hj (by simp) (by simp [Hold.Runs])) (.inl (registerCv_loc _))
      (.inl (registerCv_hold _).2)
  | @notifyOne k =>
    unfold Sync.notifyOne
    split
    · next j hj =>
      exact .of_ne (x := .none) (hwaits (.inl ⟨k, h.cvHead_parked hj⟩)) (.inl rfl) (.inr rfl)
    · exact .stays rfl rfl
  | @notifyAll m k =>
    refine .stays ?_ rfl
    have hparked : s.loc i ≠ .parked k := fun hk => hwaits (.inl ⟨k, hk⟩) rfl
    simp [Sync.notifyAll, hparked]
  | notifyNext hj =>
    exact .of_ne (x := .none) (hwaits (.inr (h.curHead_captured hj))) (.inl rfl) (.inr rfl)

/-- Who neither waits nor holds the lock is left alone by the steps of
others. -/
theorem Outside.step {a : Label ι κ ν} (h : Outside s i) (hg : Good s)
    (hs : Sync.step s a = some s') (hlock : a ≠ .lock i) (htry : a ≠ .tryLock i) :
    Outside s' i := by
  obtain ⟨hloc, hhold⟩ := h
  have ha : a.caller ≠ some i := by
    intro hcall
    cases a with
    | lock j =>
      cases hcall
      exact hlock rfl
    | tryLock j =>
      cases hcall
      exact htry rfl
    | callUnlock j | wait j =>
      cases hcall
      have hin := (Option.ite_none_right_eq_some.mp hs).1
      rw [hhold] at hin
      cases hin
    | registerLock | enter | unlock | eval | registerCv | notifyOne | notifyAll | notifyNext
    | reuse => cases hcall
  have hlocks : ¬ (s.loc i).Locks := by simp [hloc, Loc.Locks]
  cases hg.onward hs ha (.inr hloc) (.inl hhold) with
  | stays hl hh => exact ⟨hl.trans hloc, hh.trans hhold⟩
  | locks hold | grant hold => exact absurd hold hlocks
  | enter hold =>
    rw [hhold] at hold
    cases hold

theorem Acquires.step {a : Label ι κ ν} (h : Acquires s i) (hg : Good s)
    (hs : Sync.step s a = some s') (ha : a.caller ≠ some i) : Acquires s' i := by
  obtain ⟨hkind, hplace⟩ := h
  have hkind' : s'.kind i = .mutexAwaiter := by
    rcases step_kind (j := i) hs with heq | ⟨rfl, -⟩ | ⟨k, hasCond, rfl, -⟩
    · rw [heq, hkind]
    · exact absurd rfl ha
    · exact absurd rfl ha
  refine ⟨hkind', ?_⟩
  have honward : Onward s s' i := by
    rcases hplace with ⟨hl, hh⟩ | ⟨hl, hh⟩
    · exact hg.onward hs ha (.inl hl) (.inl hh)
    · exact hg.onward hs ha (.inr hl) (.inr hh)
  cases honward with
  | stays hl hh =>
    rw [hl, hh]
    exact hplace
  | locks hold hl hh =>
    rcases hplace with ⟨-, hnone⟩ | ⟨hnone, -⟩
    · exact .inl ⟨hl, hh.trans hnone⟩
    · simp [hnone, Loc.Locks] at hold
  | grant _ hl hh =>
    rw [hkind] at hh
    exact .inr ⟨hl, .inl hh⟩
  | enter hold hl hh =>
    rcases hplace with ⟨-, hnone⟩ | ⟨hnone, -⟩
    · rw [hnone] at hold
      cases hold
    · exact .inr ⟨hl.trans hnone, .inr hh⟩

/-! ## A holder that may wait -/

/-- The coroutine has the lock, or waits on a condition variable to get it
back. -/
def Busy (s : State ι κ ν) (i : ι) : Prop :=
  (s.hold i).Present ∨ s.loc i ≠ .none

omit [DecidableEq ι] [DecidableEq κ] [DecidableEq ν] in
theorem Busy.not_outside (h : Busy s i) : ¬ Outside s i := by
  rintro ⟨hloc, hhold⟩
  rcases h with hp | hne
  · rw [hhold] at hp
    exact hp
  · exact hne hloc

omit [DecidableEq ι] [DecidableEq κ] [DecidableEq ν] in
theorem Busy.congr (h : Busy s i) (hloc : s'.loc i = s.loc i) (hhold : s'.hold i = s.hold i) :
    Busy s' i := by
  unfold Busy
  rwa [hloc, hhold]

omit [DecidableEq κ] [DecidableEq ν] in
/-- A step that moves one coroutine leaves it busy if its new place says so. -/
theorem Busy.move {j : ι} {l : Loc ι κ} {x : Hold ι} (h : Busy s i)
    (hloc : s'.loc = Function.update s.loc j l ∨ s'.loc = s.loc)
    (hhold : s'.hold = Function.update s.hold j x ∨ s'.hold = s.hold)
    (hj : i = j → Busy s' i) : Busy s' i := by
  by_cases hij : i = j
  · exact hj hij
  · refine h.congr ?_ ?_
    · rcases hloc with heq | heq
      · rw [heq, Function.update_of_ne hij]
      · rw [heq]
    · rcases hhold with heq | heq
      · rw [heq, Function.update_of_ne hij]
      · rw [heq]

/-- Only a call of `unlock` ends it. -/
theorem Busy.step {a : Label ι κ ν} (h : Busy s i) (hs : Sync.step s a = some s')
    (ha : a ≠ .callUnlock i) : Busy s' i := by
  cases step_cases hs with
  | lock =>
    exact h.move (x := .none) (.inl rfl) (.inr rfl) fun hij => .inr (by simp [State.setLoc, hij])
  | tryLock | enter =>
    refine h.move (l := .none) (.inr rfl) (.inl rfl) fun hij => .inl ?_
    simp only [State.setHold, hij, Function.update_self]
    trivial
  | evalWait | evalResume | wait =>
    refine h.move (l := .none) (.inr rfl) (.inl rfl) fun hij => .inl ?_
    simp only [State.setHold, hij, Function.update_self]
    split_ifs <;> trivial
  | tryLockFails | reuse => exact h
  | @registerLock j _ _ hreg =>
    have hself : i = j → Busy s' i := by
      rintro rfl
      rcases registerLock_places hreg with ⟨hlocks, -⟩ | ⟨-, hresume⟩
      · refine .inr fun hnone => ?_
        simp [hnone, Loc.Locks] at hlocks
      · exact .inl (hresume ▸ Kind.resume_present _)
    cases registerLock_cases hreg with
    | move _ hl hh => exact h.move (x := .none) (.inl hl) (.inr hh) hself
    | grant => exact h.move (.inl rfl) (.inl rfl) hself
  | @callUnlock j =>
    refine h.move (l := .none) (.inr rfl) (.inl rfl) fun hij => ?_
    subst hij
    exact absurd rfl ha
  | @unlock j _ hunlock =>
    cases unlock_cases hunlock with
    | move _ hp _ hh hl =>
      refine h.move (l := .none) (.inr hl) (.inl hh) fun hij => ?_
      subst hij
      exact .inr (hl ▸ h.resolve_left hp)
    | @handOff t hi =>
      by_cases hit : i = t
      · subst hit
        left
        simp only [State.grant, State.setHold, Function.update_self]
        exact Kind.resume_present _
      · by_cases hij : i = j
        · subst hij
          have hp : ¬ (s.hold i).Present := by
            rw [hi]
            exact id
          exact .inr (by simpa [State.grant, State.setLoc, State.setHold, hit] using
            h.resolve_left hp)
        · exact h.congr (Function.update_of_ne hit ..)
            ((Function.update_of_ne hit ..).trans (Function.update_of_ne hij ..))
  | registerCv =>
    refine h.move (.inl (registerCv_loc _)) (.inl (registerCv_hold _).2) fun hij => .inr ?_
    simp [registerCv_loc, hij]
  | @notifyOne k =>
    unfold Sync.notifyOne
    split
    · exact h.move (x := .none) (.inl rfl) (.inr rfl) fun hij => .inr (by simp [State.setLoc, hij])
    · exact h
  | @notifyAll m k =>
    refine h.imp id fun hne => ?_
    simp only [Sync.notifyAll]
    split_ifs
    · simp
    · exact hne
  | notifyNext =>
    exact h.move (x := .none) (.inl rfl) (.inr rfl) fun hij => .inr (by simp [State.setLoc, hij])

end SheepCoro.Sync
