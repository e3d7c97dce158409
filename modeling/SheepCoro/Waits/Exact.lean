import SheepCoro.Waits.Model
import SheepCoro.Lib.Update
import Mathlib

/-!
# The wait counter is exact

Whether an awaiter is counted can be read off its position, except that a
`cv_awaiter` that is about to call `register_wait` or `await_resume` is
counted exactly when its `m_suspend_state` is set (`Pc.counted`).  The
counter of a context is the number of awaiters that are counted there.
-/

namespace SheepCoro.Waits

open Lib

/-- The awaiter has called `register_wait` and not `await_resume`. -/
def Pc.counted (kind : Kind) (suspendState : Bool) : Pc → Bool
  | .idle | .cond => false
  | .registerWait => suspendState
  | .resuming => decide (kind.unregisterCnt suspendState = 1)
  | .registerLock | .isSet | .registerAwaiter | .loadCount | .condResume | .registerCv | .parked
  | .queued | .requeued => true

def Kind.isCv : Kind → Bool
  | .cv _ => true
  | _ => false

/-- What `m_suspend_state` is at a position. -/
def Pc.Ok (kind : Kind) (suspendState : Bool) : Pc → Prop
  | .idle | .resuming => True
  | .cond => kind.isCv = true ∧ suspendState = false
  | .condResume | .registerCv => kind.isCv = true ∧ suspendState = true
  | .registerWait => kind.isCv = false → suspendState = false
  | .isSet | .registerAwaiter | .loadCount => kind.isCv = false
  | .registerLock | .parked | .queued | .requeued => kind.isCv = true → suspendState = true

variable {ι χ : Type} [DecidableEq ι] [DecidableEq χ]

structure Inv (s : State ι χ) (registered : χ → Finset ι) : Prop where
  ok : ∀ i, (s.pc i).Ok (s.kind i) (s.suspendState i)
  mem : ∀ i c, i ∈ registered c ↔
    s.ctx i = c ∧ (s.pc i).counted (s.kind i) (s.suspendState i) = true
  count : ∀ c, s.numWait c = (registered c).card

section Steps

variable {s s' : State ι χ} {registered : χ → Finset ι} {i : ι} {p : Pc}

omit [DecidableEq χ] in
/-- An awaiter moves on and is counted as before. -/
theorem Inv.goto (h : Inv s registered) (hok : p.Ok (s.kind i) (s.suspendState i))
    (hcounted : p.counted (s.kind i) (s.suspendState i) =
      (s.pc i).counted (s.kind i) (s.suspendState i)) : Inv (s.goto i p) registered := by
  refine ⟨fun j => ?_, fun j c => ?_, h.count⟩
  · by_cases hj : j = i
    · subst hj
      simp only [State.goto, Function.update_self]
      exact hok
    · simp only [State.goto, Function.update_of_ne hj]
      exact h.ok j
  · rw [h.mem j c]
    by_cases hj : j = i
    · subst hj
      simp only [State.goto, Function.update_self, hcounted]
    · simp only [State.goto, Function.update_of_ne hj]

omit [DecidableEq χ] in
/-- A new awaiter is not counted. -/
theorem Inv.await {kind : Kind} {c : χ} (h : Inv s registered) (hi : s.pc i = .idle) :
    Inv { s.goto i kind.start with
      kind := Function.update s.kind i kind
      ctx := Function.update s.ctx i c
      suspendState := Function.update s.suspendState i false } registered := by
  refine ⟨fun j => ?_, fun j c' => ?_, h.count⟩
  · by_cases hj : j = i
    · subst hj
      simp only [State.goto, Function.update_self]
      cases kind with
      | cv hasCond => cases hasCond <;> simp [Kind.start, Kind.isCv, Pc.Ok]
      | mutex | event | waitGroup => simp [Kind.start, Pc.Ok]
    · simp only [State.goto, Function.update_of_ne hj]
      exact h.ok j
  · rw [h.mem j c']
    by_cases hj : j = i
    · subst hj
      have hnot : (kind.start).counted kind false = false := by
        cases kind with
        | cv hasCond => cases hasCond <;> rfl
        | mutex | event | waitGroup => rfl
      have hidle : (s.pc j).counted (s.kind j) (s.suspendState j) = false := by
        rw [hi]
        rfl
      simp only [State.goto, Function.update_self, hnot, hidle, Bool.false_eq_true, and_false]
    · simp only [State.goto, Function.update_of_ne hj]

/-- The awaiter and its context change, and nobody else does. -/
theorem Inv.recount {n : Int} {m : Finset ι} {b : Bool} (h : Inv s registered)
    (hok : p.Ok (s.kind i) b) (hself : i ∈ m ↔ p.counted (s.kind i) b = true)
    (hothers : ∀ j, j ≠ i → (j ∈ m ↔ j ∈ registered (s.ctx i))) (hn : n = m.card) :
    Inv { s with
      pc := Function.update s.pc i p
      suspendState := Function.update s.suspendState i b
      numWait := Function.update s.numWait (s.ctx i) n }
      fun c => if s.ctx i = c then m else registered c := by
  refine ⟨fun j => ?_, fun j c => ?_, fun c => ?_⟩
  · by_cases hj : j = i
    · subst hj
      simp only [Function.update_self]
      exact hok
    · simp only [Function.update_of_ne hj]
      exact h.ok j
  · by_cases hj : j = i
    · subst hj
      simp only [Function.update_self]
      by_cases hc : s.ctx j = c
      · rw [if_pos hc, hself]
        exact ⟨fun hp => ⟨hc, hp⟩, fun hp => hp.2⟩
      · rw [if_neg hc, h.mem j c]
        exact ⟨fun hp => absurd hp.1 hc, fun hp => absurd hp.1 hc⟩
    · simp only [Function.update_of_ne hj]
      rw [← h.mem j c]
      by_cases hc : s.ctx i = c
      · subst hc
        rw [if_pos rfl, hothers j hj]
      · rw [if_neg hc]
  · by_cases hc : s.ctx i = c
    · subst hc
      simp only [Function.update_self, if_true, hn]
    · rw [if_neg hc]
      simp only [Function.update_of_ne (Ne.symm hc)]
      exact h.count c

theorem Inv.registerWait (h : Inv s registered) (hs : step s (.registerWait i) = some s') :
    Inv s' (noteRegistered s (.registerWait i) registered) := by
  obtain ⟨hi, hs⟩ := Option.ite_none_right_eq_some.mp hs
  have hok := h.ok i
  have hmem := h.mem i (s.ctx i)
  have hcount := h.count (s.ctx i)
  rw [hi] at hok hmem
  simp only [Pc.counted, true_and] at hmem
  -- The argument of `register_wait` is one exactly for an awaiter that is not
  -- counted yet.
  have hcard : ∀ n : Nat, (n = if s.suspendState i = true then 0 else 1) →
      s.numWait (s.ctx i) + n = (insert i (registered (s.ctx i))).card := by
    intro n hn
    split_ifs at hn with hsusp
    · rw [Finset.insert_eq_of_mem (hmem.mpr hsusp), hcount, hn]
      simp
    · rw [Finset.card_insert_of_notMem fun hm => hsusp (hmem.mp hm), hcount, hn]
      simp
  have hothers : ∀ j, j ≠ i →
      (j ∈ insert i (registered (s.ctx i)) ↔ j ∈ registered (s.ctx i)) := by
    intro j hj
    simp [hj]
  have hnote : noteRegistered s (.registerWait i) registered =
      fun c => if s.ctx i = c then insert i (registered (s.ctx i)) else registered c := by
    funext c
    simp only [noteRegistered]
    split_ifs with hc
    · rw [hc]
    · rfl
  rw [hnote]
  cases hkind : s.kind i with
  | cv hasCond =>
    rw [hkind] at hs
    cases hs
    refine h.recount (i := i) ?_ ?_ hothers (hcard _ ?_)
    · simp [hkind, Kind.registered, Pc.Ok, Kind.isCv]
    · simp [Kind.registered, Pc.counted]
    · cases hsusp : s.suspendState i <;> simp [Kind.registerCnt]
  | mutex | event | waitGroup =>
    rw [hkind] at hs hok
    cases hs
    have hfalse : s.suspendState i = false := hok rfl
    have hsame : Function.update s.suspendState i false = s.suspendState := by
      rw [← hfalse, Function.update_eq_self]
    have hnew := h.recount (i := i) (p := (s.kind i).registered) (b := false)
      (by simp [hkind, Kind.registered, Pc.Ok, Kind.isCv])
      (by simp [hkind, Kind.registered, Pc.counted]) hothers
      (hcard _ (by simp [hfalse] : 1 = _))
    rw [hsame, hkind] at hnew
    exact hnew

omit [DecidableEq χ] in
/-- `unregister_wait` is called with one exactly by an awaiter that is
counted. -/
theorem Inv.unregisterCnt (h : Inv s registered) (hi : s.pc i = .resuming) :
    (s.kind i).unregisterCnt (s.suspendState i) =
      if i ∈ registered (s.ctx i) then 1 else 0 := by
  have hmem := h.mem i (s.ctx i)
  rw [hi] at hmem
  simp only [Pc.counted, true_and, decide_eq_true_eq] at hmem
  split_ifs with hin
  · exact hmem.mp hin
  · have hne := fun heq => hin (hmem.mpr heq)
    cases hk : s.kind i with
    | cv hasCond =>
      rw [hk] at hne
      cases hsusp : s.suspendState i with
      | false => rfl
      | true =>
        rw [hsusp] at hne
        exact absurd rfl hne
    | mutex | event | waitGroup =>
      rw [hk] at hne
      exact absurd rfl hne

theorem Inv.awaitResume (h : Inv s registered) (hs : step s (.awaitResume i) = some s') :
    Inv s' (noteRegistered s (.awaitResume i) registered) := by
  obtain ⟨hi, hs⟩ := Option.ite_none_right_eq_some.mp hs
  cases hs
  have hcnt := h.unregisterCnt hi
  have hcount := h.count (s.ctx i)
  have hcard : s.numWait (s.ctx i) - (s.kind i).unregisterCnt (s.suspendState i) =
      ((registered (s.ctx i)).erase i).card := by
    rw [hcnt, hcount]
    split_ifs with hin
    · have hpos := Finset.card_erase_add_one hin
      omega
    · rw [Finset.erase_eq_of_notMem hin]
      simp
  have hnote : noteRegistered s (.awaitResume i) registered =
      fun c => if s.ctx i = c then (registered (s.ctx i)).erase i else registered c := by
    funext c
    simp only [noteRegistered]
    split_ifs with hc
    · rw [hc]
    · rfl
  rw [hnote]
  have hnew := h.recount (i := i) (p := .idle) (b := s.suspendState i) trivial
    (by simp [Pc.counted]) (fun j hj => by simp [hj]) hcard
  rw [Function.update_eq_self] at hnew
  exact hnew

/-- Everybody but a `cv_awaiter` calls `unregister_wait` with one. -/
theorem Kind.unregisterCnt_of_not_cv {kind : Kind} {suspendState : Bool}
    (h : kind.isCv = false) : kind.unregisterCnt suspendState = 1 := by
  cases kind with
  | cv hasCond => cases h
  | mutex | event | waitGroup => rfl

omit [DecidableEq χ] in
/-- An awaiter that is counted goes to a position where it is, too. -/
theorem Inv.counted_goto (h : Inv s registered)
    (hi : (s.pc i).counted (s.kind i) (s.suspendState i) = true)
    (hok : p.Ok (s.kind i) (s.suspendState i))
    (hp : p.counted (s.kind i) (s.suspendState i) = true) : Inv (s.goto i p) registered :=
  h.goto hok (hp.trans hi.symm)

omit [DecidableEq χ] in
/-- The first step of `cv_awaiter::resume`. -/
theorem Inv.resumeCv {hasCond : Bool} (h : Inv s registered) (hkind : s.kind i = .cv hasCond)
    (hi : (s.pc i).counted (s.kind i) (s.suspendState i) = true)
    (hsusp : s.suspendState i = true) : Inv (s.goto i (resumeCv hasCond)) registered := by
  cases hasCond with
  | false => exact h.counted_goto hi (fun _ => hsusp) rfl
  | true => exact h.counted_goto hi ⟨by rw [hkind]; rfl, hsusp⟩ rfl

theorem Inv.registerLock {pushed : Bool} (h : Inv s registered)
    (hs : step s (.registerLock i pushed) = some s') : Inv s' registered := by
  obtain ⟨hi, hs⟩ := Option.ite_none_right_eq_some.mp hs
  have hok := h.ok i
  rw [hi] at hok
  have hcounted : (s.pc i).counted (s.kind i) (s.suspendState i) = true := by
    rw [hi]
    rfl
  split_ifs at hs
  · cases hs
    exact h.counted_goto hcounted hok rfl
  · split at hs
    · next hasCond hkind =>
      cases hs
      exact h.resumeCv hkind hcounted (hok (by rw [hkind]; rfl))
    · next hkind =>
      cases hs
      refine h.counted_goto hcounted trivial (decide_eq_true ?_)
      cases hk : s.kind i with
      | cv hasCond => exact absurd hk (hkind hasCond)
      | mutex | event | waitGroup => rfl

omit [DecidableEq χ] in
/-- `await_ready` and `await_suspend` of the event and of the wait group end
with a push or with the coroutine running on. -/
theorem Inv.pushed (h : Inv s registered) (hkind : (s.kind i).isCv = false)
    (hi : (s.pc i).counted (s.kind i) (s.suspendState i) = true)
    (hp : p = .registerAwaiter ∨ p = .parked ∨ p = .resuming) : Inv (s.goto i p) registered := by
  rcases hp with rfl | rfl | rfl
  · exact h.counted_goto hi hkind rfl
  · refine h.counted_goto hi (fun hcv => ?_) rfl
    rw [hkind] at hcv
    cases hcv
  · exact h.counted_goto hi trivial (decide_eq_true (Kind.unregisterCnt_of_not_cv hkind))

theorem Inv.cond {value : Bool} (h : Inv s registered)
    (hs : step s (.cond i value) = some s') : Inv s' registered := by
  have hok := h.ok i
  simp only [Waits.step] at hs
  split at hs
  · next hi =>
    cases hs
    rw [hi] at hok
    obtain ⟨hcv, hsusp⟩ := hok
    -- Nothing was registered, and `await_resume` will not unregister.
    have hzero : (s.kind i).unregisterCnt (s.suspendState i) = 0 := by
      cases hk : s.kind i with
      | cv hasCond =>
        rw [hsusp]
        rfl
      | mutex | event | waitGroup =>
        rw [hk] at hcv
        cases hcv
    cases value with
    | true => exact h.goto trivial (by simp [hi, Pc.counted, hzero])
    | false => exact h.goto (fun _ => hsusp) (by simp [hi, Pc.counted, hsusp])
  · next hi =>
    cases hs
    rw [hi] at hok
    obtain ⟨hcv, hsusp⟩ := hok
    have hcounted : (s.pc i).counted (s.kind i) (s.suspendState i) = true := by
      rw [hi]
      rfl
    cases value with
    | true => exact h.counted_goto hcounted (fun _ => hsusp) rfl
    | false =>
      refine h.counted_goto hcounted (fun hnot => ?_) hsusp
      rw [hcv] at hnot
      cases hnot
  · cases hs

theorem Inv.resume (h : Inv s registered) (hs : step s (.resume i) = some s') :
    Inv s' registered := by
  have hok := h.ok i
  have hcounted : s.pc i = .queued ∨ s.pc i = .parked →
      (s.pc i).counted (s.kind i) (s.suspendState i) = true := by
    rintro (hi | hi) <;> rw [hi] <;> rfl
  simp only [Waits.step] at hs
  split at hs
  · next hi _ =>
    cases hs
    rw [hi] at hok
    exact h.counted_goto (hcounted (.inl hi)) hok rfl
  · next hi hkind =>
    cases hs
    rw [hi] at hok
    exact h.resumeCv hkind (hcounted (.inl hi)) (hok (by rw [hkind]; rfl))
  · next hi _ =>
    cases hs
    rw [hi] at hok
    exact h.counted_goto (hcounted (.inr hi)) hok rfl
  · next hi _ =>
    cases hs
    rw [hi] at hok
    exact h.counted_goto (hcounted (.inr hi)) hok rfl
  · cases hs

theorem Inv.step {a : Label ι χ} (h : Inv s registered) (hs : Waits.step s a = some s') :
    Inv s' (noteRegistered s a registered) := by
  cases a with
  | await i kind c =>
    obtain ⟨hi, ⟨⟩⟩ := Option.ite_none_right_eq_some.mp hs
    exact h.await hi
  | registerWait i => exact h.registerWait hs
  | awaitResume i => exact h.awaitResume hs
  | registerLock i pushed => exact h.registerLock hs
  | isSet i set =>
    obtain ⟨hi, ⟨⟩⟩ := Option.ite_none_right_eq_some.mp hs
    have hok := h.ok i
    rw [hi] at hok
    apply h.pushed hok (by rw [hi]; rfl)
    cases set <;> simp
  | registerAwaiter i pushed | loadCount i pushed =>
    obtain ⟨hi, ⟨⟩⟩ := Option.ite_none_right_eq_some.mp hs
    have hok := h.ok i
    rw [hi] at hok
    apply h.pushed hok (by rw [hi]; rfl)
    cases pushed <;> simp
  | cond i value => exact h.cond hs
  | registerCv i =>
    obtain ⟨hi, ⟨⟩⟩ := Option.ite_none_right_eq_some.mp hs
    have hok := h.ok i
    rw [hi] at hok
    exact h.counted_goto (by rw [hi]; rfl) (fun _ => hok.2) rfl
  | wakeUp i =>
    simp only [Waits.step] at hs
    split at hs
    · next hi _ =>
      cases hs
      have hok := h.ok i
      rw [hi] at hok
      exact h.counted_goto (by rw [hi]; rfl) hok rfl
    · cases hs
  | resume i => exact h.resume hs
  | exec i =>
    obtain ⟨hi, ⟨⟩⟩ := Option.ite_none_right_eq_some.mp hs
    have hok := h.ok i
    rw [hi] at hok
    refine h.counted_goto (by rw [hi]; rfl) trivial (decide_eq_true ?_)
    cases hk : s.kind i with
    | cv hasCond =>
      rw [hk] at hok
      rw [hok rfl]
      rfl
    | mutex | event | waitGroup => rfl

end Steps

theorem inv_of_run {s₀ s : State ι χ} {as : List (Label ι χ)} (h₀ : Init s₀)
    (hrun : (machine ι χ).run s₀ as = some s) :
    Inv s ((machine ι χ).history noteRegistered s₀ (fun _ => ∅) as) := by
  refine Machine.history_invariant (M := machine ι χ) (f := noteRegistered) (I := Inv)
    (fun s a s' registered _ hI hs => hI.step hs) (.init h₀) ⟨fun i => ?_, fun i c => ?_, ?_⟩ hrun
  · rw [h₀.pc i]
    trivial
  · simp [h₀.pc i, Pc.counted]
  · intro c
    rw [h₀.numWait c]
    simp

theorem inv_of_reachable {s : State ι χ} (h : (machine ι χ).Reachable s) :
    ∃ registered, Inv s registered := by
  refine h.invariant (I := fun s => ∃ registered, Inv s registered) (fun s h₀ => ?_) ?_
  · have hrun : (machine ι χ).run s [] = some s := rfl
    exact ⟨_, inv_of_run h₀ hrun⟩
  · rintro s a s' - ⟨registered, hinv⟩ hs
    exact ⟨_, hinv.step hs⟩

/-- What the counter of the context `c` says about the awaiters that are
registered there. -/
structure Exact (s : State ι χ) (c : χ) (registered : Finset ι) : Prop where
  count : s.numWait c = registered.card
  /-- `unregister_wait` never subtracts more than there is. -/
  no_underflow : ∀ i, s.pc i = .resuming → s.ctx i = c →
    ((s.kind i).unregisterCnt (s.suspendState i) : Int) ≤ s.numWait c
  /-- The context does not look idle while a coroutine of it is suspended or
  has been submitted and does not run yet. -/
  not_empty : ∀ i, s.Suspended i → s.ctx i = c → ∀ emptyIo, s.emptyWaitTask c emptyIo = false

theorem exact_of_run {s₀ s : State ι χ} {as : List (Label ι χ)} (h₀ : Init s₀)
    (hrun : (machine ι χ).run s₀ as = some s) (c : χ) :
    Exact s c ((machine ι χ).history noteRegistered s₀ (fun _ => ∅) as c) := by
  have hinv := inv_of_run h₀ hrun
  refine ⟨hinv.count c, fun i hi hc => ?_, fun i hi hc emptyIo => ?_⟩
  · have hcnt := hinv.unregisterCnt hi
    rw [hc] at hcnt
    rw [hcnt, hinv.count c]
    split_ifs with hmem
    · have hpos := Finset.card_pos.mpr ⟨i, hmem⟩
      omega
    · simp
  · have hcounted : (s.pc i).counted (s.kind i) (s.suspendState i) = true := by
      unfold State.Suspended at hi
      split at hi
      · next hpc => rw [hpc]; rfl
      · next hpc => rw [hpc]; rfl
      · next hpc => rw [hpc]; rfl
      · next hpc => rw [hpc]; rfl
      · next hpc => rw [hpc]; rfl
      · next hpc => rw [hpc]; rfl
      · next hpc =>
        rw [hpc]
        exact hi
      · exact hi.elim
    have hpos := Finset.card_pos.mpr ⟨i, (hinv.mem i c).mpr ⟨hc, hcounted⟩⟩
    have hne : s.numWait c ≠ 0 := by
      rw [hinv.count c]
      omega
    simp [State.emptyWaitTask, hne]

end SheepCoro.Waits
