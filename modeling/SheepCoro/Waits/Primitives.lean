import SheepCoro.Waits.Exact
import SheepCoro.Event.Model
import SheepCoro.Sync.Notify
import SheepCoro.WaitGroup

/-!
# The primitives follow the awaiters

`SheepCoro.Waits` lets every operation of an awaiter return anything, but it
also says when an awaiter can be woken and resumed.  The machines of the
mutex with its condition variables, of the event and of the wait group do no
more than that: each of their steps is a step or two of the awaiters, or none.  In
particular nobody is handed the lock, woken or resumed who is not waiting for
it, so no awaiter calls `await_resume` twice.
-/

namespace SheepCoro.Waits

open Lib

variable {ι κ ν χ : Type} [DecidableEq ι] [DecidableEq κ] [DecidableEq ν] [DecidableEq χ]

/-! ## The mutex and the condition variables -/

/-- The class of an awaiter of a mutex. -/
def ofKind : Sync.Kind κ → Kind
  | .mutexAwaiter => .mutex
  | .cvAwaiter _ hasCond => .cv hasCond

/-- The positions of an awaiter, by the two coordinates of its coroutine.  A
coroutine that was granted the lock runs on or was submitted. -/
def ofSync : Sync.Loc ι κ → Sync.Hold ι → List Pc
  | .parked _, _ | .captured, _ => [.parked]
  | .load, _ | .cas _, _ => [.registerLock]
  | .queued, _ => [.queued]
  | .none, .granted => [.requeued, .resuming]
  | .none, .evalWait => [.cond]
  | .none, .evalResume => [.condResume]
  | .none, .registerCv => [.registerWait]
  | .none, _ => [.idle]

/-- The coroutine does not wait for the lock and is not in a `wait`. -/
def settled : Sync.Hold ι → Bool
  | .granted | .evalWait | .evalResume | .registerCv => false
  | _ => true

omit [DecidableEq ι] in
theorem settled_of_not_present {x : Sync.Hold ι} (hx : ¬ x.Present) : settled x = true := by
  cases x with
  | granted | evalWait | evalResume | registerCv | inside => exact absurd trivial hx
  | none | readResumeList | casUnlock | exchange | reverse | popResumeList | handOff => rfl

/-- The awaiter on the list of a condition variable is a `cv_awaiter`. -/
def OnCv (kind : Sync.Kind κ) : Sync.Loc ι κ → Prop
  | .parked _ | .captured => ∃ k hasCond, kind = .cvAwaiter k hasCond
  | _ => True

/-- Where one awaiter is in the two machines. -/
structure At (loc : Sync.Loc ι κ) (hold : Sync.Hold ι) (kind : Sync.Kind κ) (pc : Pc)
    (awaiter : Kind) : Prop where
  position : pc ∈ ofSync loc hold
  awaits : pc ≠ .idle → awaiter = ofKind kind
  onCv : OnCv kind loc

def Follows (s : Sync.State ι κ ν) (w : State ι χ) : Prop :=
  ∀ i, At (s.loc i) (s.hold i) (s.kind i) (w.pc i) (w.kind i)

section Sync

variable {s s' : Sync.State ι κ ν} {w w' : State ι χ} {i : ι}

omit [DecidableEq ι] [DecidableEq κ] in
theorem ofSync_settled {loc : Sync.Loc ι κ} {x y : Sync.Hold ι} (hx : settled x = true)
    (hy : settled y = true) : ofSync loc x = ofSync loc y := by
  cases loc with
  | none =>
    have hidle : ∀ z : Sync.Hold ι, settled z = true →
        ofSync (.none : Sync.Loc ι κ) z = [.idle] := by
      intro z hz
      cases z <;> first | rfl | cases hz
    rw [hidle x hx, hidle y hy]
  | parked | captured | load | cas | queued => rfl

theorem reachable_next {l : Label ι χ} (hr : (machine ι χ).Reachable w)
    (hs : step w l = some w') : (machine ι χ).Reachable w' :=
  Machine.Reachable.next (a := l) hr hs

/-! What the steps of an awaiter do to its position and to its class. -/

/-- The awaiter is at `pc` now, as one of the class `awaiter`. -/
structure Moved (w : State ι χ) (i : ι) (pc : Pc) (awaiter : Kind) (w' : State ι χ) : Prop where
  pc : w'.pc = Function.update w.pc i pc
  kind : w'.kind = Function.update w.kind i awaiter

section

omit [DecidableEq χ]

theorem Moved.refl : Moved w i (w.pc i) (w.kind i) w :=
  ⟨(Function.update_eq_self ..).symm, (Function.update_eq_self ..).symm⟩

theorem Moved.goto (p : Pc) : Moved w i p (w.kind i) (w.goto i p) :=
  ⟨rfl, (Function.update_eq_self ..).symm⟩

theorem Moved.trans {p q : Pc} {awaiter awaiter' : Kind} {u : State ι χ}
    (h : Moved w i p awaiter u) (h' : Moved u i q awaiter' w') : Moved w i q awaiter' w' := by
  refine ⟨?_, ?_⟩
  · rw [h'.pc, h.pc, Function.update_idem]
  · rw [h'.kind, h.kind, Function.update_idem]

theorem Moved.self {p : Pc} {awaiter : Kind} (h : Moved w i p awaiter w') :
    w'.pc i = p ∧ w'.kind i = awaiter := by
  rw [h.pc, h.kind]
  exact ⟨Function.update_self .., Function.update_self ..⟩

end

theorem moved_await (awaiter : Kind) (c : χ) (hr : (machine ι χ).Reachable w)
    (hi : w.pc i = .idle) :
    ∃ w', (machine ι χ).Reachable w' ∧ Moved w i awaiter.start awaiter w' := by
  have hstep : step w (.await i awaiter c) = some _ := if_pos hi
  exact ⟨_, reachable_next hr hstep, rfl, rfl⟩

theorem moved_registerWait (hr : (machine ι χ).Reachable w) (hi : w.pc i = .registerWait) :
    ∃ w', (machine ι χ).Reachable w' ∧ Moved w i (w.kind i).registered (w.kind i) w' := by
  cases hs : step w (.registerWait i) with
  | none =>
    simp only [step, hi, if_true] at hs
    split at hs <;> cases hs
  | some u =>
    refine ⟨u, reachable_next hr hs, ?_⟩
    obtain ⟨_, hs⟩ := Option.ite_none_right_eq_some.mp hs
    split at hs
    · cases hs
      exact ⟨rfl, (Function.update_eq_self ..).symm⟩
    · cases hs
      exact ⟨rfl, (Function.update_eq_self ..).symm⟩

/-- A coroutine that was submitted runs on, past `await_resume`. -/
theorem moved_awaitResume (hr : (machine ι χ).Reachable w)
    (hi : w.pc i = .requeued ∨ w.pc i = .resuming) :
    ∃ w', (machine ι χ).Reachable w' ∧ Moved w i .idle (w.kind i) w' := by
  have hresume : ∀ u : State ι χ, (machine ι χ).Reachable u → u.pc i = .resuming →
      ∃ w', (machine ι χ).Reachable w' ∧ Moved u i .idle (u.kind i) w' := by
    intro u hu hpc
    have hstep : step u (.awaitResume i) = some _ := if_pos hpc
    exact ⟨_, reachable_next hu hstep, rfl, (Function.update_eq_self ..).symm⟩
  rcases hi with hi | hi
  · have hexec : step w (.exec i) = some (w.goto i .resuming) := if_pos hi
    obtain ⟨w', hw', hmoved⟩ := hresume _ (reachable_next hr hexec) (Function.update_self ..)
    exact ⟨w', hw', (Moved.goto .resuming).trans hmoved⟩
  · exact hresume w hr hi

omit [DecidableEq κ] in
/-- The step of an awaiter that gets the lock. -/
theorem moved_grant {kind : Sync.Kind κ} (hr : (machine ι χ).Reachable w)
    (hi : w.pc i = .registerLock ∨ w.pc i = .queued) (hkind : w.kind i = ofKind kind) :
    ∃ w' p, (machine ι χ).Reachable w' ∧ Moved w i p (w.kind i) w' ∧
      p ∈ ofSync (.none : Sync.Loc ι κ) kind.resume := by
  have hcv : ∀ (k : κ) hasCond, resumeCv hasCond ∈
      ofSync (.none : Sync.Loc ι κ) (Sync.Kind.resume (.cvAwaiter k hasCond)) := by
    intro k hasCond
    cases hasCond <;> simp [resumeCv, Sync.Kind.resume, ofSync]
  rcases hi with hi | hi
  · cases kind with
    | mutexAwaiter =>
      have hstep : step w (.registerLock i false) = some (w.goto i .resuming) := by
        simp [step, hi, hkind, ofKind]
      exact ⟨_, _, reachable_next hr hstep, .goto _, by simp [Sync.Kind.resume, ofSync]⟩
    | cvAwaiter k hasCond =>
      have hstep : step w (.registerLock i false) = some (w.goto i (resumeCv hasCond)) := by
        simp [step, hi, hkind, ofKind]
      exact ⟨_, _, reachable_next hr hstep, .goto _, hcv k hasCond⟩
  · cases kind with
    | mutexAwaiter =>
      have hstep : step w (.resume i) = some (w.goto i .requeued) := by
        simp [step, hi, hkind, ofKind]
      exact ⟨_, _, reachable_next hr hstep, .goto _, by simp [Sync.Kind.resume, ofSync]⟩
    | cvAwaiter k hasCond =>
      have hstep : step w (.resume i) = some (w.goto i (resumeCv hasCond)) := by
        simp [step, hi, hkind, ofKind]
      exact ⟨_, _, reachable_next hr hstep, .goto _, hcv k hasCond⟩

/-! The two machines side by side. -/

omit [DecidableEq κ] [DecidableEq ν] [DecidableEq χ] in
/-- One awaiter moves in both machines. -/
theorem Follows.move {p : Pc} {awaiter : Kind} (h : Follows s w) (hmoved : Moved w i p awaiter w')
    (hs : ∀ j, j ≠ i → s'.loc j = s.loc j ∧ s'.hold j = s.hold j ∧ s'.kind j = s.kind j)
    (hi : At (s'.loc i) (s'.hold i) (s'.kind i) p awaiter) : Follows s' w' := by
  intro j
  rw [hmoved.pc, hmoved.kind]
  by_cases hj : j = i
  · subst hj
    rw [Function.update_self, Function.update_self]
    exact hi
  · obtain ⟨hloc, hhold, hkind⟩ := hs j hj
    rw [hloc, hhold, hkind, Function.update_of_ne hj, Function.update_of_ne hj]
    exact h j

omit [DecidableEq κ] [DecidableEq ν] [DecidableEq χ] in
/-- The holder goes from one place inside of its critical section or of
`unlock` to another. -/
theorem Follows.settle {x : Sync.Hold ι} (h : Follows s w) (hloc : s'.loc = s.loc)
    (hkind : s'.kind = s.kind) (hhold : s'.hold = Function.update s.hold i x)
    (hi : settled (s.hold i) = true) (hx : settled x = true) : Follows s' w := by
  refine h.move (i := i) .refl (fun j hj => ?_) ?_
  · rw [hloc, hkind, hhold, Function.update_of_ne hj]
    exact ⟨rfl, rfl, rfl⟩
  · obtain ⟨hpos, hawaits, hcv⟩ := h i
    rw [hloc, hkind, hhold, Function.update_self]
    refine ⟨?_, hawaits, hcv⟩
    rw [ofSync_settled hx hi]
    exact hpos

omit [DecidableEq ι] [DecidableEq κ] [DecidableEq ν] [DecidableEq χ] in
/-- A coroutine that does not wait is not in a `co_await`. -/
theorem Follows.idle (h : Follows s w) (hloc : s.loc i = .none)
    (hhold : settled (s.hold i) = true) : w.pc i = .idle := by
  have hpos := (h i).position
  rw [hloc, ofSync_settled hhold (y := .none) rfl] at hpos
  simpa [ofSync] using hpos

section

omit [DecidableEq κ] [DecidableEq ν]

theorem Follows.grant (h : Follows s w) (hr : (machine ι χ).Reachable w)
    (hi : w.pc i = .registerLock ∨ w.pc i = .queued) :
    ∃ w', (machine ι χ).Reachable w' ∧ Follows (s.grant i) w' := by
  have hawaits := (h i).awaits (by rcases hi with hi | hi <;> simp [hi])
  obtain ⟨w', p, hw', hmoved, hp⟩ := moved_grant hr hi hawaits
  refine ⟨w', hw', h.move hmoved (fun j hj => ?_) ⟨?_, fun _ => hawaits, ?_⟩⟩
  · simp [Sync.State.grant, Sync.State.setHold, Sync.State.setLoc, hj]
  · simpa [Sync.State.grant, Sync.State.setHold, Sync.State.setLoc] using hp
  · simp [Sync.State.grant, Sync.State.setHold, Sync.State.setLoc, OnCv]

omit [DecidableEq χ] in
/-- The awaiter is elsewhere in `register_lock`, or on the list. -/
theorem Follows.setLoc {loc : Sync.Loc ι κ} {p : Pc} (h : Follows s w)
    (hmoved : Moved w i p (w.kind i) w') (hi : w.pc i ≠ .idle)
    (hloc : s'.loc = Function.update s.loc i loc) (hhold : s'.hold = s.hold)
    (hkind : s'.kind = s.kind) (hp : ∀ x, p ∈ ofSync loc x) (hcv : OnCv (s.kind i) loc) :
    Follows s' w' := by
  refine h.move hmoved (fun j hj => ?_) ?_
  · rw [hloc, hhold, hkind, Function.update_of_ne hj]
    exact ⟨rfl, rfl, rfl⟩
  · rw [hloc, hkind, Function.update_self]
    exact ⟨hp _, fun _ => (h i).awaits hi, hcv⟩

theorem Follows.registerLock {spurious : Bool} (h : Follows s w)
    (hr : (machine ι χ).Reachable w) (hs : Sync.registerLock s i spurious = some s') :
    ∃ w', (machine ι χ).Reachable w' ∧ Follows s' w' := by
  have hpos := (h i).position
  -- Another turn of the loop.
  have hturn : ∀ loc, w.pc i = .registerLock → s'.loc = Function.update s.loc i loc →
      s'.hold = s.hold → s'.kind = s.kind → (∀ x, Pc.registerLock ∈ ofSync loc x) →
      OnCv (s.kind i) loc → Follows s' w := by
    intro loc hi hloc hhold hkind hp hcv
    refine h.setLoc .refl (by simp [hi]) hloc hhold hkind ?_ hcv
    rwa [hi]
  unfold Sync.registerLock at hs
  split at hs
  · next hload =>
    cases hs
    rw [hload] at hpos
    have hi : w.pc i = .registerLock := by simpa [ofSync] using hpos
    exact ⟨w, hr, hturn _ hi rfl rfl rfl (by simp [ofSync]) trivial⟩
  · next expected hcas =>
    rw [hcas] at hpos
    have hi : w.pc i = .registerLock := by simpa [ofSync] using hpos
    split_ifs at hs
    · cases expected with
      | nolocked =>
        cases hs
        have hsame : Follows { s with state := .locked none } w := h
        exact hsame.grant hr (.inl hi)
      | locked head =>
        cases hs
        have hstep : step w (.registerLock i true) = some (w.goto i .queued) := by
          simp [step, hi]
        exact ⟨_, reachable_next hr hstep, h.setLoc (.goto .queued) (by simp [hi]) rfl rfl rfl
          (by simp [ofSync]) trivial⟩
    · cases hs
      exact ⟨w, hr, hturn _ hi rfl rfl rfl (by simp [ofSync]) trivial⟩
  · cases hs

theorem Follows.unlock (h : Follows s w) (hg : Sync.Good s) (hr : (machine ι χ).Reachable w)
    (hs : Sync.unlock s i = some s') : ∃ w', (machine ι χ).Reachable w' ∧ Follows s' w' := by
  cases Sync.unlock_cases hs with
  | move _ hp hx hhold hloc hkind =>
    -- All places inside of `unlock` look the same.
    exact ⟨w, hr, h.settle hloc hkind hhold (settled_of_not_present hp)
      (settled_of_not_present hx)⟩
  | @handOff t hi =>
    have hreleased : Follows (s.setHold i .none) w :=
      h.settle rfl rfl rfl (by rw [hi]; rfl) rfl
    refine hreleased.grant hr (.inr ?_)
    have hpos := (h t).position
    rw [hg.handOff_queued hi] at hpos
    simpa [ofSync] using hpos

/-- A notification passes a waiter to `register_lock`. -/
theorem Follows.wake (h : Follows s w) (hr : (machine ι χ).Reachable w)
    (hi : s.loc i = .captured ∨ ∃ k, s.loc i = .parked k)
    (hloc : s'.loc = Function.update s.loc i .load) (hhold : s'.hold = s.hold)
    (hkind : s'.kind = s.kind) : ∃ w', (machine ι χ).Reachable w' ∧ Follows s' w' := by
  obtain ⟨hpos, hawaits, hcv⟩ := h i
  have hparked : w.pc i = .parked ∧ ∃ k hasCond, s.kind i = .cvAwaiter k hasCond := by
    rcases hi with hi | ⟨k, hi⟩
    · rw [hi] at hpos hcv
      exact ⟨by simpa [ofSync] using hpos, hcv⟩
    · rw [hi] at hpos hcv
      exact ⟨by simpa [ofSync] using hpos, hcv⟩
  obtain ⟨hpc, k, hasCond, hk⟩ := hparked
  have hne : w.pc i ≠ .idle := by simp [hpc]
  have hstep : step w (.wakeUp i) = some (w.goto i .registerLock) := by
    simp [step, hpc, hawaits hne, hk, ofKind]
  exact ⟨_, reachable_next hr hstep, h.setLoc (.goto .registerLock) hne hloc hhold hkind
    (by simp [ofSync]) trivial⟩

/-- A coroutine that runs with the lock waits on a condition variable. -/
theorem Follows.wait {k : κ} {hasCond : Bool} (h : Follows s w) (hg : Sync.Good s)
    (hr : (machine ι χ).Reachable w) (c : χ) (hi : s.hold i = .inside) :
    ∃ w', (machine ι χ).Reachable w' ∧
      Follows { s.setHold i (if hasCond then .evalWait else .registerCv) with
        kind := Function.update s.kind i (.cvAwaiter k hasCond) } w' := by
  have hloc := hg.loc_eq_none (i := i) (by rw [hi]; trivial)
  obtain ⟨w', hw', hmoved⟩ := moved_await (.cv hasCond) c hr
    (h.idle hloc (by rw [hi]; rfl))
  refine ⟨w', hw', h.move hmoved (fun j hj => ?_) ⟨?_, fun _ => ?_, ?_⟩⟩
  · simp [Sync.State.setHold, hj]
  · cases hasCond <;> simp [Sync.State.setHold, hloc, ofSync, Kind.start]
  · simp [ofKind]
  · simp [Sync.State.setHold, hloc, OnCv]

/-- A new awaiter of the mutex registers with its context. -/
theorem Follows.lock (h : Follows s w) (hr : (machine ι χ).Reachable w) (c : χ)
    (hloc : s.loc i = .none) (hhold : s.hold i = .none) :
    ∃ w', (machine ι χ).Reachable w' ∧
      Follows { s.setLoc i .load with kind := Function.update s.kind i .mutexAwaiter } w' := by
  obtain ⟨u, hu, hawait⟩ := moved_await .mutex c hr
    (h.idle hloc (by rw [hhold]; rfl))
  obtain ⟨w', hw', hregister⟩ := moved_registerWait hu hawait.self.1
  rw [hawait.self.2] at hregister
  refine ⟨w', hw', h.move (hawait.trans hregister) (fun j hj => ?_) ⟨?_, fun _ => ?_, ?_⟩⟩
  · simp [Sync.State.setLoc, hj]
  · simp [Sync.State.setLoc, ofSync, Kind.registered]
  · simp [ofKind]
  · simp [Sync.State.setLoc, OnCv]

end

omit [DecidableEq ν] in
/-- A waiter that has found its predicate false registers and parks. -/
theorem Follows.registerCv {k : κ} {hasCond : Bool} (h : Follows s w) (hg : Sync.Good s)
    (hr : (machine ι χ).Reachable w) (hi : s.hold i = .registerCv)
    (hkind : s.kind i = .cvAwaiter k hasCond) :
    ∃ w', (machine ι χ).Reachable w' ∧ Follows (Sync.registerCv s i k) w' := by
  obtain ⟨hpos, hawaits, -⟩ := h i
  rw [hg.loc_eq_none (i := i) (by rw [hi]; trivial), hi] at hpos
  have hpc : w.pc i = .registerWait := by simpa [ofSync] using hpos
  have hawaiter := hawaits (by simp [hpc])
  obtain ⟨u, hu, hregister⟩ := moved_registerWait hr hpc
  have hupc : u.pc i = .registerCv := by
    rw [hregister.self.1, hawaiter, hkind]
    rfl
  have hpark : step u (.registerCv i) = some (u.goto i .parked) := if_pos hupc
  have hmoved := hregister.trans (Moved.goto .parked)
  rw [hregister.self.2] at hmoved
  obtain ⟨hkinds, hhold⟩ := Sync.registerCv_hold (s := s) (i := i) k
  have hloc := Sync.registerCv_loc (s := s) (i := i) k
  refine ⟨_, reachable_next hu hpark, h.move hmoved (fun j hj => ?_) ?_⟩
  · rw [hkinds, hhold, hloc, Function.update_of_ne hj, Function.update_of_ne hj]
    exact ⟨rfl, rfl, rfl⟩
  · rw [hkinds, hhold, hloc, Function.update_self, Function.update_self]
    exact ⟨by simp [ofSync], fun _ => hawaiter, k, hasCond, hkind⟩

omit [DecidableEq κ] [DecidableEq ν] [DecidableEq χ] in
/-- The awaiter and the holder move, and the awaiter is on no list. -/
theorem Follows.setHold {x : Sync.Hold ι} {p : Pc} (h : Follows s w)
    (hmoved : Moved w i p (w.kind i) w') (hi : w.pc i ≠ .idle) (hloc : s.loc i = .none)
    (hp : p ∈ ofSync (.none : Sync.Loc ι κ) x) : Follows (s.setHold i x) w' := by
  refine h.move hmoved (fun j hj => ?_) ⟨?_, fun _ => (h i).awaits hi, ?_⟩
  · simp [Sync.State.setHold, hj]
  · simpa [Sync.State.setHold, hloc] using hp
  · simp [Sync.State.setHold, hloc, OnCv]

/-- A predicate is evaluated, before the coroutine is suspended or in
`resume()`. -/
theorem Follows.eval {value : Bool} (h : Follows s w) (hg : Sync.Good s)
    (hr : (machine ι χ).Reachable w) (hs : Sync.step s (.eval i value) = some s') :
    ∃ w', (machine ι χ).Reachable w' ∧ Follows s' w' := by
  have hpos := (h i).position
  simp only [Sync.step] at hs
  split at hs
  · next hi =>
    cases hs
    have hloc := hg.loc_eq_none (i := i) (by rw [hi]; trivial)
    rw [hloc, hi] at hpos
    have hpc : w.pc i = .cond := by simpa [ofSync] using hpos
    cases value with
    | false =>
      have hstep : step w (.cond i false) = some (w.goto i .registerWait) := by simp [step, hpc]
      exact ⟨_, reachable_next hr hstep, h.setHold (.goto _) (by simp [hpc]) hloc
        (by simp [ofSync])⟩
    | true =>
      -- `await_suspend` returns `false`, and `await_resume` follows.
      have hstep : step w (.cond i true) = some (w.goto i .resuming) := by simp [step, hpc]
      obtain ⟨w', hw', hresumed⟩ := moved_awaitResume (reachable_next hr hstep)
        (.inr (Function.update_self ..))
      exact ⟨w', hw', h.setHold ((Moved.goto .resuming).trans hresumed) (by simp [hpc]) hloc
        (by simp [ofSync])⟩
  · next hi =>
    cases hs
    have hloc := hg.loc_eq_none (i := i) (by rw [hi]; trivial)
    rw [hloc, hi] at hpos
    have hpc : w.pc i = .condResume := by simpa [ofSync] using hpos
    cases value with
    | false =>
      have hstep : step w (.cond i false) = some (w.goto i .registerWait) := by simp [step, hpc]
      exact ⟨_, reachable_next hr hstep, h.setHold (.goto _) (by simp [hpc]) hloc
        (by simp [ofSync])⟩
    | true =>
      have hstep : step w (.cond i true) = some (w.goto i .requeued) := by simp [step, hpc]
      exact ⟨_, reachable_next hr hstep, h.setHold (.goto _) (by simp [hpc]) hloc
        (by simp [ofSync])⟩
  · cases hs

/-- Every step of the mutex and of its condition variables is followed by the
awaiters; `c` is the context of a new awaiter. -/
theorem Follows.step {a : Sync.Label ι κ ν} (h : Follows s w) (hg : Sync.Good s)
    (hr : (machine ι χ).Reachable w) (c : χ) (hs : Sync.step s a = some s') :
    ∃ w', (machine ι χ).Reachable w' ∧ Follows s' w' := by
  cases Sync.step_cases hs with
  | lock hloc hhold => exact h.lock hr c hloc hhold
  | tryLock _ hhold => exact ⟨w, hr, h.settle rfl rfl rfl (by rw [hhold]; rfl) rfl⟩
  | registerLock hreg => exact h.registerLock hr hreg
  | @enter i hi =>
    have hloc := hg.loc_eq_none (i := i) (by rw [hi]; trivial)
    have hpos := (h i).position
    rw [hloc, hi] at hpos
    have hpc : w.pc i = .requeued ∨ w.pc i = .resuming := by simpa [ofSync] using hpos
    obtain ⟨w', hw', hmoved⟩ := moved_awaitResume hr hpc
    refine ⟨w', hw', h.setHold hmoved ?_ hloc (by simp [ofSync])⟩
    rcases hpc with hpc | hpc <;> simp [hpc]
  | callUnlock hi => exact ⟨w, hr, h.settle rfl rfl rfl (by rw [hi]; rfl) rfl⟩
  | unlock hunlock => exact h.unlock hg hr hunlock
  | wait hi => exact h.wait hg hr c hi
  | evalWait | evalResume => exact h.eval hg hr hs
  | registerCv hi hkind => exact h.registerCv hg hr hi hkind
  | @notifyOne k =>
    unfold Sync.notifyOne
    split
    · next i hi => exact h.wake hr (.inr ⟨k, hg.cvHead_parked hi⟩) rfl rfl rfl
    · exact ⟨w, hr, h⟩
  | notifyAll =>
    refine ⟨w, hr, fun i => ?_⟩
    obtain ⟨hpos, hawaits, hcv⟩ := h i
    simp only [Sync.notifyAll]
    split_ifs with hi
    · rw [hi] at hpos hcv
      exact ⟨hpos, hawaits, hcv⟩
    · exact ⟨hpos, hawaits, hcv⟩
  | notifyNext hi => exact h.wake hr (.inl (hg.curHead_captured hi)) rfl rfl rfl
  | tryLockFails | reuse => exact ⟨w, hr, h⟩

end Sync

/-- Whatever a mutex and its condition variables do, the awaiters can do. -/
theorem sync_follows (c : χ) {s : Sync.State ι κ ν}
    (h : (Sync.machine ι κ ν).Reachable s) :
    ∃ w : State ι χ, (machine ι χ).Reachable w ∧ Follows s w := by
  refine h.simulate (N := machine ι χ) (R := Follows) (fun s h0 => ?_) ?_
  · refine ⟨newState c, .init (init_newState c), fun i => ?_⟩
    rw [Sync.Init.loc h0 i, Sync.Init.hold h0 i]
    exact ⟨by simp [newState, ofSync], fun hne => absurd rfl hne, trivial⟩
  · intro s a s' w hs hw hfollows hstep
    exact hfollows.step (Sync.good_of_reachable hs) hw c hstep

/-! ## The event and the wait group -/

/-- Where an awaiter may be, and of which class it is then. -/
structure AtAwaiter (positions : List Pc) (cls : Kind) (p : Pc) (awaiter : Kind) : Prop where
  position : p ∈ positions
  awaits : p ≠ .idle → awaiter = cls

/-- Every coroutine awaits with an awaiter of one class. -/
def FollowsAt (cls : Kind) (place : ι → List Pc) (w : State ι χ) : Prop :=
  ∀ i, AtAwaiter (place i) cls (w.pc i) (w.kind i)

/-- Outside of its `co_await` the coroutine may still have to run on. -/
def outside : List Pc := [.idle, .requeued, .resuming]

section Single

variable {cls : Kind} {place place' : ι → List Pc} {w w' : State ι χ} {i : ι}

omit [DecidableEq ι] [DecidableEq χ] in
theorem FollowsAt.pc_eq {p : Pc} (h : FollowsAt cls place w) (hi : place i = [p]) :
    w.pc i = p := by
  have hpos := (h i).position
  rw [hi] at hpos
  simpa using hpos

omit [DecidableEq χ] in
theorem FollowsAt.move {p : Pc} {awaiter : Kind} (h : FollowsAt cls place w)
    (hmoved : Moved w i p awaiter w') (hother : ∀ j ≠ i, place' j = place j)
    (hi : AtAwaiter (place' i) cls p awaiter) : FollowsAt cls place' w' := by
  intro j
  rw [hmoved.pc, hmoved.kind]
  by_cases hj : j = i
  · subst hj
    simpa only [Function.update_self] using hi
  · simp only [Function.update_of_ne hj]
    rw [hother j hj]
    exact h j

/-- The coroutine awaits again; it has run on in the meantime. -/
theorem FollowsAt.await (h : FollowsAt cls place w) (hr : (machine ι χ).Reachable w) (c : χ)
    (hstart : cls.start = .registerWait) (hi : place i = outside)
    (hother : ∀ j ≠ i, place' j = place j) (hp : cls.registered ∈ place' i) :
    ∃ w', (machine ι χ).Reachable w' ∧ FollowsAt cls place' w' := by
  have hpos := (h i).position
  rw [hi] at hpos
  have hran : ∃ u awaiter, (machine ι χ).Reachable u ∧ Moved w i .idle awaiter u := by
    by_cases hidle : w.pc i = .idle
    · have hrefl := Moved.refl (w := w) (i := i)
      rw [hidle] at hrefl
      exact ⟨w, _, hr, hrefl⟩
    · have hpc : w.pc i = .requeued ∨ w.pc i = .resuming := by
        simpa [outside, hidle] using hpos
      obtain ⟨u, hu, hmoved⟩ := moved_awaitResume hr hpc
      exact ⟨u, _, hu, hmoved⟩
  obtain ⟨u, awaiter, hu, hran⟩ := hran
  obtain ⟨v, hv, hawait⟩ := moved_await cls c hu hran.self.1
  rw [hstart] at hawait
  obtain ⟨w', hw', hregister⟩ := moved_registerWait hv hawait.self.1
  rw [hawait.self.2] at hregister
  exact ⟨w', hw', h.move ((hran.trans hawait).trans hregister) hother ⟨hp, fun _ => rfl⟩⟩

/-- An awaiter moves in one step. -/
theorem FollowsAt.goto {l : Label ι χ} {p : Pc} (h : FollowsAt cls place w)
    (hr : (machine ι χ).Reachable w) (hi : w.pc i ≠ .idle)
    (hstep : step w l = some (w.goto i p)) (hother : ∀ j ≠ i, place' j = place j)
    (hp : p ∈ place' i) : ∃ w', (machine ι χ).Reachable w' ∧ FollowsAt cls place' w' :=
  ⟨_, reachable_next hr hstep, h.move (.goto p) hother ⟨hp, fun _ => (h i).awaits hi⟩⟩

/-- Whoever submits a coroutine finds it parked. -/
theorem FollowsAt.resume (h : FollowsAt cls place w) (hr : (machine ι χ).Reachable w)
    (hclass : cls = .event ∨ cls = .waitGroup) (hi : place i = [.parked])
    (hother : ∀ j ≠ i, place' j = place j) (hout : place' i = outside) :
    ∃ w', (machine ι χ).Reachable w' ∧ FollowsAt cls place' w' := by
  have hpc := h.pc_eq hi
  have hkind := (h i).awaits (by simp [hpc])
  have hstep : Waits.step w (.resume i) = some (w.goto i .requeued) := by
    rcases hclass with heq | heq <;> simp [Waits.step, hpc, hkind, heq]
  exact h.goto hr (by simp [hpc]) hstep hother (by simp [hout, outside])

omit [DecidableEq ι] [DecidableEq χ] in
/-- A turn of a loop leaves every awaiter where it is. -/
theorem FollowsAt.turn (h : FollowsAt cls place w) (hsame : ∀ j, place' j = place j) :
    FollowsAt cls place' w := by
  intro j
  rw [hsame j]
  exact h j

theorem FollowsAt.newState (cls : Kind) (c : χ) (hplace : ∀ i, place i = outside) :
    ∃ w, (machine ι χ).Reachable w ∧ FollowsAt cls place w := by
  refine ⟨Waits.newState c, .init (init_newState c), fun i => ⟨?_, fun hne => absurd rfl hne⟩⟩
  simp [hplace i, outside, Waits.newState]

end Single

/-- The positions of an awaiter of an event, by the place of its coroutine. -/
def ofEvent : Event.WaitPc ι → List Pc
  | .out => outside
  | .ready => [.isSet]
  | .load | .cas _ => [.registerAwaiter]
  | .suspended => [.parked]

def FollowsEvent {δ : Type} (s : Event.State ι δ) (w : State ι χ) : Prop :=
  FollowsAt .event (fun i => ofEvent (s.wait i)) w

/-- The positions of an awaiter of a wait group. -/
def ofWait : WaitGroup.WaitPc ι → List Pc
  | .out => outside
  | .loadCount | .loadHead | .casHead _ => [.loadCount]
  | .suspended => [.parked]

def FollowsGroup {δ : Type} (s : WaitGroup.State ι δ) (w : State ι χ) : Prop :=
  FollowsAt .waitGroup (fun i => ofWait (s.wait i)) w

/-- One coroutine moves, and its awaiter may be where it was. -/
theorem place_update {γ : Type} {f : ι → γ} {i : ι} {x : γ} {g : γ → List Pc}
    (hx : g x = g (f i)) (j : ι) : g (Function.update f i x j) = g (f j) := by
  by_cases hj : j = i
  · subst hj
    rw [Function.update_self, hx]
  · rw [Function.update_of_ne hj]

section Event

variable {δ : Type} [DecidableEq δ] {initialSet : Bool} {s s' : Event.State ι δ} {w : State ι χ}

theorem FollowsEvent.step {a : Event.Label ι δ} (h : FollowsEvent s w)
    (hr : (machine ι χ).Reachable w) (c : χ) (hs : Event.step s a = some s') :
    ∃ w', (machine ι χ).Reachable w' ∧ FollowsEvent s' w' := by
  cases a with
  | wait i =>
    obtain ⟨hi, ⟨⟩⟩ := Option.ite_none_right_eq_some.mp hs
    refine FollowsAt.await (i := i) h hr c rfl (congrArg ofEvent hi) (fun j hj => ?_) ?_
    · simp only [Function.update_of_ne hj]
    · simp [ofEvent, Kind.registered]
  | isSet i =>
    obtain ⟨hi, ⟨⟩⟩ := Option.ite_none_right_eq_some.mp hs
    have hpc := FollowsAt.pc_eq h (congrArg ofEvent hi)
    have hstep : Waits.step w (.isSet i (decide (s.word = .set))) = some (w.goto i _) := if_pos hpc
    refine FollowsAt.goto h hr (by simp [hpc]) hstep (fun j hj => ?_) ?_
    · simp only [Function.update_of_ne hj]
    · by_cases hword : s.word = .set
      · simp [hword, ofEvent, outside]
      · simp [hword, ofEvent]
  | load i =>
    obtain ⟨hi, hs⟩ := Option.ite_none_right_eq_some.mp hs
    have hload : ofEvent (s.wait i) = [.registerAwaiter] := congrArg ofEvent hi
    split at hs
    · cases hs
      have hpc := FollowsAt.pc_eq h hload
      have hstep : Waits.step w (.registerAwaiter i false) = some (w.goto i .resuming) :=
        if_pos hpc
      refine FollowsAt.goto h hr (by simp [hpc]) hstep (fun j hj => ?_) ?_
      · simp only [Function.update_of_ne hj]
      · simp [ofEvent, outside]
    · cases hs
      exact ⟨w, hr, FollowsAt.turn h (place_update hload.symm)⟩
  | cas i spurious =>
    simp only [Event.step] at hs
    split at hs
    · next old hi =>
      have hcas : ofEvent (s.wait i) = [.registerAwaiter] := congrArg ofEvent hi
      split at hs
      · cases hs
        have hpc := FollowsAt.pc_eq h hcas
        have hstep : Waits.step w (.registerAwaiter i true) = some (w.goto i .parked) :=
          if_pos hpc
        refine FollowsAt.goto h hr (by simp [hpc]) hstep (fun j hj => ?_) ?_
        · simp only [Function.update_of_ne hj]
        · simp [ofEvent]
      · cases hs
        exact ⟨w, hr, FollowsAt.turn h (place_update hcas.symm)⟩
    · cases hs
  | submit d =>
    simp only [Event.step] at hs
    split at hs
    · next i _ =>
      obtain ⟨hi, ⟨⟩⟩ := Option.ite_none_right_eq_some.mp hs
      refine FollowsAt.resume (i := i) h hr (.inl rfl) (congrArg ofEvent hi) (fun j hj => ?_) ?_
      · simp only [Function.update_of_ne hj]
      · simp [ofEvent]
    · cases hs
  | set d | exchange d | reuse i =>
    obtain ⟨_, ⟨⟩⟩ := Option.ite_none_right_eq_some.mp hs
    exact ⟨w, hr, h⟩
  | advance d =>
    simp only [Event.step] at hs
    split at hs
    · cases hs
      exact ⟨w, hr, h⟩
    · cases hs

/-- Whatever an event does, the awaiters can do. -/
theorem event_follows (c : χ) (h : (Event.machine ι δ initialSet).Reachable s) :
    ∃ w : State ι χ, (machine ι χ).Reachable w ∧ FollowsEvent s w := by
  refine h.simulate (N := machine ι χ) (R := FollowsEvent) (fun s h0 => ?_) ?_
  · refine FollowsAt.newState .event c fun i => ?_
    rw [Event.Init.wait_out h0 i]
    rfl
  · intro s a s' w _ hw hfollows hstep
    exact hfollows.step hw c hstep

end Event

section WaitGroup

variable {δ : Type} [DecidableEq δ] {s s' : WaitGroup.State ι δ} {w : State ι χ}

theorem FollowsGroup.step {a : WaitGroup.Label ι δ} (h : FollowsGroup s w)
    (hr : (machine ι χ).Reachable w) (c : χ) (hs : WaitGroup.step s a = some s') :
    ∃ w', (machine ι χ).Reachable w' ∧ FollowsGroup s' w' := by
  cases WaitGroup.step_cases hs with
  | @wait i hi =>
    refine FollowsAt.await (i := i) h hr c rfl (congrArg ofWait hi) (fun j hj => ?_) ?_
    · simp only [Function.update_of_ne hj]
    · simp [ofWait, Kind.registered]
  | @loadCount i hi =>
    have hload : ofWait (s.wait i) = [.loadCount] := congrArg ofWait hi
    by_cases hcount : s.count = 0
    · have hpc := FollowsAt.pc_eq h hload
      have hstep : Waits.step w (.loadCount i false) = some (w.goto i .resuming) := if_pos hpc
      refine FollowsAt.goto h hr (by simp [hpc]) hstep (fun j hj => ?_) ?_
      · simp only [Function.update_of_ne hj]
      · simp [hcount, ofWait, outside]
    · refine ⟨w, hr, FollowsAt.turn h (place_update (Eq.trans ?_ hload.symm))⟩
      rw [if_neg hcount]
      rfl
  | @loadHead i hi | @casFails i _ _ hi =>
    have hload : ofWait (s.wait i) = [.loadCount] := congrArg ofWait hi
    exact ⟨w, hr, FollowsAt.turn h (place_update hload.symm)⟩
  | @push i hi =>
    have hpc := FollowsAt.pc_eq h (congrArg ofWait hi)
    have hstep : Waits.step w (.loadCount i true) = some (w.goto i .parked) := if_pos hpc
    refine FollowsAt.goto h hr (by simp [hpc]) hstep (fun j hj => ?_) ?_
    · simp only [Function.update_of_ne hj]
    · simp [ofWait]
  | @resume _ i _ hi =>
    refine FollowsAt.resume (i := i) h hr (.inr rfl) (congrArg ofWait hi) (fun j hj => ?_) ?_
    · simp only [Function.update_of_ne hj]
    · simp [ofWait]
  | advance | add | done | exchange | reuse => exact ⟨w, hr, h⟩

/-- Whatever a wait group does, the awaiters can do. -/
theorem wait_group_follows (c : χ) (h : (WaitGroup.machine ι δ).Reachable s) :
    ∃ w : State ι χ, (machine ι χ).Reachable w ∧ FollowsGroup s w := by
  refine h.simulate (N := machine ι χ) (R := FollowsGroup) (fun s h0 => ?_) ?_
  · refine FollowsAt.newState .waitGroup c fun i => ?_
    rw [WaitGroup.Init.wait_out h0 i]
    rfl
  · intro s a s' w _ hw hfollows hstep
    exact hfollows.step hw c hstep

end WaitGroup

/-! ## The wait counter -/

/-- The wait counter of every context is exact in every run, whatever the
awaiters wait for and however their waits turn out.  The mutex with its
condition variables, the event and the wait group, each by itself, only do to
their awaiters what happens in such a run. -/
theorem wait_counter_exact {δ : Type} [DecidableEq δ] (s₀ s : State ι χ)
    (as : List (Label ι χ)) (h₀ : Init s₀) (hrun : (machine ι χ).run s₀ as = some s) (c : χ) :
    Exact s c ((machine ι χ).history noteRegistered s₀ (fun _ => ∅) as c) ∧
    (∀ u : Sync.State ι κ ν, (Sync.machine ι κ ν).Reachable u →
      ∃ w : State ι χ, (machine ι χ).Reachable w ∧ Follows u w) ∧
    (∀ (initialSet : Bool) (u : Event.State ι δ), (Event.machine ι δ initialSet).Reachable u →
      ∃ w : State ι χ, (machine ι χ).Reachable w ∧ FollowsEvent u w) ∧
    ∀ u : WaitGroup.State ι δ, (WaitGroup.machine ι δ).Reachable u →
      ∃ w : State ι χ, (machine ι χ).Reachable w ∧ FollowsGroup u w :=
  ⟨exact_of_run h₀ hrun c, fun _ hu => sync_follows c hu, fun _ _ hu => event_follows c hu,
    fun _ hu => wait_group_follows c hu⟩

/-- A `cv_awaiter` parks, is notified, gets the lock from `unlock`, finds its
predicate false and parks again; another coroutine finds its event set. -/
def parksAgain : List (Label (Fin 2) Unit) :=
  [.await 0 (.cv true) (), .cond 0 false, .registerWait 0, .registerCv 0, .wakeUp 0,
    .registerLock 0 true, .resume 0, .cond 0 false, .registerWait 0, .registerCv 0,
    .await 1 .event (), .registerWait 1, .isSet 1 true]

theorem wait_counter_exact_parks_again :
    ∃ s, (machine (Fin 2) Unit).run (newState ()) parksAgain = some s ∧ s.pc 0 = .parked ∧
      s.numWait () = 2 ∧ Exact s () {0, 1} := by
  have hrun : ((machine (Fin 2) Unit).run (newState ()) parksAgain).map (fun s =>
      decide (s.pc 0 = .parked ∧ s.numWait () = 2)) = some true := by decide
  have hregistered : (machine (Fin 2) Unit).history noteRegistered (newState ()) (fun _ => ∅)
      parksAgain () = {0, 1} := by decide
  obtain ⟨s, hs, htest⟩ := Option.map_eq_some_iff.mp hrun
  obtain ⟨hparked, htwo⟩ := of_decide_eq_true htest
  refine ⟨s, hs, hparked, htwo, ?_⟩
  have hexact := wait_counter_exact (κ := Unit) (ν := Unit) (δ := Unit) (newState ()) s
    parksAgain (init_newState ()) hs ()
  rw [hregistered] at hexact
  exact hexact.1

end SheepCoro.Waits
