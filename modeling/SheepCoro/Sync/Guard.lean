import SheepCoro.Sync.Frame
import SheepCoro.Lib.History
import Mathlib.Data.Finset.Card
import Mathlib.Data.Fintype.Defs

/-!
# Guards

`lock_guard` of `include/coro/comp/mutex_guard.hpp` on the machine of
`SheepCoro.Sync`.  A guard is a reference to the mutex: `co_await
lock_guard()` returns one, its destructor calls `unlock`, and the move
constructor copies the reference and leaves the old guard as it was.

In the mutex, three kinds of names take part.  A coroutine waits for the lock.
When its `co_await` returns a guard, the lock is held by an acquisition, since
the guard may be given away while the coroutine goes on.  A call of `unlock` by
a destructor ends the acquisition that its guard comes from, if it has not
ended before, and runs under a name of its own.

While a guard lives its coroutine may wait on a condition variable, as `send`
and `recv` of a channel do.  The wait releases the lock and gets it back in the
name of the acquisition, and the guard is not destroyed in between: the
coroutine that has it is suspended.

The counts of acquisitions and of calls are the names in use.
-/

namespace SheepCoro.Sync

open Lib

section Lemmas

variable {ι κ ν : Type} [DecidableEq ι] [DecidableEq κ] [DecidableEq ν]
  {s s' : State ι κ ν} {i j : ι}

omit [DecidableEq κ] [DecidableEq ν] in
/-- The lock passes from one name to another one that is not in use. -/
theorem Good.rename {x : Hold ι} (h : Good s) (hi : (s.hold i).Present) (hloc : s.loc j = .none)
    (hj : s.hold j = .none) (hx : x.Present ∨ x = .readResumeList) :
    Good ((s.setHold i .none).setHold j x) := by
  obtain ⟨o, stack, resume, cvs, caps, h⟩ := h
  obtain ⟨rfl, hmoved⟩ := h.goto hi hx
  have hside := hmoved.side
  simp only [phase, Option.elim, State.setHold, Function.update_self] at hside
  have hij : i ≠ j := by
    rintro rfl
    rw [hj] at hi
    exact hi
  have hxne : x ≠ .none := by
    rintro rfl
    rcases hx with hx | hx
    · exact hx
    · cases hx
  have hothers : ∀ b, b ≠ j → ((s.setHold i .none).setHold j x).hold b = .none := by
    intro b hb
    simp only [State.setHold, Function.update_of_ne hb]
    by_cases hbi : b = i
    · rw [hbi, Function.update_self]
    · rw [Function.update_of_ne hbi]
      by_contra hne
      exact hbi (Option.some.inj (h.holder hne)).symm
  have hself : ((s.setHold i .none).setHold j x).hold j = x := Function.update_self ..
  refine ⟨some j, stack, resume, cvs, caps, h.places, h.links.setHold.setHold, ?_, ?_, ?_, ?_, ?_⟩
  · intro b
    by_cases hb : b = j
    · subst hb
      simp [hself, hxne]
    · simp only [hothers b hb, ne_eq, not_true_eq_false, Option.some.injEq, false_iff]
      exact fun heq => hb heq.symm
  · simpa [State.setHold] using h.locked
  · simp only [phase, Option.elim, hself]
    exact hside
  · intro b hb
    by_cases hbj : b = j
    · rw [hbj, hself] at hb
      rw [hb] at hx
      rcases hx with hx | hx
      · exact hx.elim
      · cases hx
    · rw [hothers b hbj] at hb
      cases hb
  · intro b hb
    by_cases hbj : b = j
    · rw [hbj]
      exact hloc
    · rw [hothers b hbj] at hb
      exact hb.elim

end Lemmas

end SheepCoro.Sync

namespace SheepCoro.Guard

open Lib

/-- The names in the mutex. -/
inductive Agent (ι : Type)
  | coroutine (i : ι)
  /-- The guard of a `co_await lock_guard()`, wherever it has been moved to. -/
  | acquisition (n : Nat)
  /-- A call of `unlock` by the destructor of a guard. -/
  | unlockCall (n : Nat)
deriving DecidableEq

structure State (ι γ κ ν : Type) where
  sync : Sync.State (Agent ι) κ ν
  /-- The guards that live, each with the acquisition that it comes from. -/
  guard : γ → Option Nat
  acquired : Nat
  called : Nat

inductive Label (ι γ κ ν : Type)
  /-- A step of the mutex that is not about a guard, or the next step of a
  call of `unlock`. -/
  | sync (l : Sync.Label (Agent ι) κ ν)
  /-- `co_await lock_guard()` returns `g`. -/
  | create (i : ι) (g : γ)
  /-- `lock_guard(lock_guard&& other)`. -/
  | move (g other : γ)
  /-- `~lock_guard()`. -/
  | destroy (g : γ)

def Agent.isCoroutine {ι : Type} : Agent ι → Bool
  | .coroutine _ => true
  | _ => false

/-- Only a coroutine asks for the mutex or calls `unlock` itself.  It may wait
with a guard, in the name of the acquisition. -/
def plain {ι κ ν : Type} : Sync.Label (Agent ι) κ ν → Bool
  | .lock a | .tryLock a | .callUnlock a => a.isCoroutine
  | _ => true

variable {ι γ κ ν : Type} [DecidableEq ι] [DecidableEq γ] [DecidableEq κ] [DecidableEq ν]

/-- The acquisition has the lock or has ended; it is not in a wait. -/
def State.resting (s : State ι γ κ ν) (n : Nat) : Prop :=
  s.sync.loc (.acquisition n) = .none ∧
    (s.sync.hold (.acquisition n) = .inside ∨ s.sync.hold (.acquisition n) = .none)

instance (s : State ι γ κ ν) (n : Nat) : Decidable (s.resting n) :=
  inferInstanceAs (Decidable (_ ∧ (_ ∨ _)))

def step (s : State ι γ κ ν) : Label ι γ κ ν → Option (State ι γ κ ν)
  | .sync l =>
    if plain l = true then (Sync.step s.sync l).map fun y => { s with sync := y } else none
  | .create i g =>
    if s.sync.hold (.coroutine i) = .granted ∧ s.sync.kind (.coroutine i) = .mutexAwaiter ∧
        s.guard g = none then
      some { s with
        sync := (s.sync.setHold (.coroutine i) .none).setHold (.acquisition s.acquired) .inside
        guard := Function.update s.guard g (some s.acquired)
        acquired := s.acquired + 1 }
    else none
  | .move g other =>
    if s.guard g = none ∧ s.guard other ≠ none then
      some { s with guard := Function.update s.guard g (s.guard other) }
    else none
  | .destroy g =>
    match s.guard g with
    | some n =>
      if s.resting n then
        some { s with
          sync := (s.sync.setHold (.acquisition n) .none).setHold (.unlockCall s.called)
            .readResumeList
          guard := Function.update s.guard g none
          called := s.called + 1 }
      else none
    | none => none

/-- A new mutex, and no guard. -/
structure Init (s : State ι γ κ ν) : Prop where
  sync : Sync.Init s.sync
  guard : ∀ g, s.guard g = none
  acquired : s.acquired = 0
  called : s.called = 0

variable (ι γ κ ν) in
def machine : Machine (State ι γ κ ν) (Label ι γ κ ν) where
  init := Init
  step := step

/-- The acquisition that a step makes. -/
def acquisition (s : State ι γ κ ν) : Label ι γ κ ν → List Nat
  | .create _ _ => [s.acquired]
  | _ => []

/-- The acquisition of the guard whose destructor calls `unlock` in a step. -/
def unlocking (s : State ι γ κ ν) : Label ι γ κ ν → List Nat
  | .destroy g => (s.guard g).toList
  | _ => []

/-- The mutex is owned through an acquisition, and by nobody else. -/
def OwnedThrough (s : State ι γ κ ν) (n : Nat) : Prop :=
  s.sync.hold (.acquisition n) = .inside ∧
    ∀ a, s.sync.hold a ≠ .none → a = .acquisition n

def Label.isMove : Label ι γ κ ν → Bool
  | .move _ _ => true
  | _ => false

/-! ## Without moves -/

section Lemmas

variable {s₀ s s' : State ι γ κ ν} {as : List (Label ι γ κ ν)} {l : Label ι γ κ ν}

omit [DecidableEq κ] [DecidableEq ν] in
/-- A name that is not in use stays so when the lock gets another name. -/
theorem outside_rename {y : Sync.State (Agent ι) κ ν} {a b c : Agent ι}
    {x : Sync.Hold (Agent ι)} (hc : Sync.Outside y c) (hne : c ≠ b) :
    Sync.Outside ((y.setHold a .none).setHold b x) c := by
  refine ⟨hc.1, (Function.update_of_ne hne ..).trans ?_⟩
  exact update_eq_of (fun _ => rfl) fun _ => hc.2

/-- The acquisitions of the guards that live have the lock or wait to get it
back. -/
structure Kept (s : State ι γ κ ν) : Prop where
  good : Sync.Good s.sync
  busy : ∀ g n, s.guard g = some n → Sync.Busy s.sync (.acquisition n)
  one : ∀ g g' n, s.guard g = some n → s.guard g' = some n → g = g'
  acquisition_idle : ∀ n, s.acquired ≤ n → Sync.Outside s.sync (.acquisition n)
  unlockCall_idle : ∀ n, s.called ≤ n → Sync.Outside s.sync (.unlockCall n)

section

omit [DecidableEq ι] [DecidableEq κ] [DecidableEq ν] [DecidableEq γ]

theorem Kept.init (h : Init s) : Kept s where
  good := h.sync.good
  busy g n hg := by simp [h.guard] at hg
  one g g' n hg := by simp [h.guard] at hg
  acquisition_idle n _ := ⟨h.sync.loc _, h.sync.hold _⟩
  unlockCall_idle n _ := ⟨h.sync.loc _, h.sync.hold _⟩

/-- A guard that is destroyed has the lock through its acquisition, and nobody
else has it. -/
theorem Kept.ownedThrough {g : γ} {n : Nat} (h : Kept s) (hg : s.guard g = some n)
    (hrest : s.resting n) : OwnedThrough s n := by
  have hin : s.sync.hold (.acquisition n) = .inside := by
    refine hrest.2.resolve_right fun hnone => ?_
    exact (h.busy g n hg).not_outside ⟨hrest.1, hnone⟩
  refine ⟨hin, fun a ha => ?_⟩
  exact h.good.unique ha (by simp [hin])

/-- The acquisition of a guard was made. -/
theorem Kept.lt_acquired {g : γ} {n : Nat} (h : Kept s) (hg : s.guard g = some n) :
    n < s.acquired := by
  by_contra hle
  exact (h.busy g n hg).not_outside (h.acquisition_idle n (Nat.le_of_not_lt hle))

end

omit [DecidableEq γ] in
theorem Kept.sync {x : Sync.Label (Agent ι) κ ν} {y : Sync.State (Agent ι) κ ν} (h : Kept s)
    (hplain : plain x = true) (hs : Sync.step s.sync x = some y) : Kept { s with sync := y } := by
  have hidle : ∀ a : Agent ι, a.isCoroutine = false → Sync.Outside s.sync a → Sync.Outside y a := by
    intro a ha hout
    refine hout.step h.good hs ?_ ?_
    · rintro rfl
      cases hplain.symm.trans ha
    · rintro rfl
      cases hplain.symm.trans ha
  refine ⟨h.good.step hs, fun g n hg => ?_, h.one, fun n hn => ?_, fun n hn => ?_⟩
  · refine (h.busy g n hg).step hs ?_
    rintro rfl
    cases hplain
  · exact hidle _ rfl (h.acquisition_idle n hn)
  · exact hidle _ rfl (h.unlockCall_idle n hn)

theorem Kept.create {i : ι} {g : γ} (h : Kept s) (hs : step s (.create i g) = some s') :
    Kept s' := by
  obtain ⟨⟨hi, _, _⟩, ⟨⟩⟩ := Option.ite_none_right_eq_some.mp hs
  obtain ⟨hloc, hhold⟩ := h.acquisition_idle s.acquired (Nat.le_refl _)
  have hpresent : (s.sync.hold (.coroutine i)).Present := by
    rw [hi]
    trivial
  have hcases : ∀ g' n, Function.update s.guard g (some s.acquired) g' = some n →
      g' = g ∧ n = s.acquired ∨ s.guard g' = some n ∧ n < s.acquired := by
    intro g' n hg'
    rcases update_eq_iff.mp hg' with ⟨hgg, hn⟩ | ⟨_, hold⟩
    · exact .inl ⟨hgg, (Option.some.inj hn).symm⟩
    · exact .inr ⟨hold, h.lt_acquired hold⟩
  refine ⟨h.good.rename hpresent hloc hhold (.inl trivial), ?_, ?_, ?_, ?_⟩
  · intro g' n hg'
    rcases hcases g' n hg' with ⟨_, rfl⟩ | ⟨hold, hlt⟩
    · exact .inl (by simp [Sync.State.setHold, Sync.Hold.Present])
    · refine (h.busy g' n hold).congr rfl ?_
      have hne : n ≠ s.acquired := Nat.ne_of_lt hlt
      simp [Sync.State.setHold, hne]
  · intro g' g'' n hg' hg''
    rcases hcases g' n hg' with ⟨rfl, rfl⟩ | ⟨hold', hlt⟩
    · rcases hcases g'' _ hg'' with ⟨rfl, _⟩ | ⟨_, hlt⟩
      · rfl
      · exact absurd hlt (Nat.lt_irrefl _)
    · rcases hcases g'' n hg'' with ⟨_, rfl⟩ | ⟨hold'', _⟩
      · exact absurd hlt (Nat.lt_irrefl _)
      · exact h.one g' g'' n hold' hold''
  · intro n hn
    have hlt : s.acquired < n := hn
    apply outside_rename (h.acquisition_idle n (Nat.le_of_lt hlt))
    simpa using Nat.ne_of_gt hlt
  · intro n hn
    exact outside_rename (h.unlockCall_idle n hn) (by simp)

theorem Kept.destroy {g : γ} (h : Kept s) (hs : step s (.destroy g) = some s') : Kept s' := by
  simp only [step] at hs
  split at hs
  · next n hg =>
    obtain ⟨hrest, ⟨⟩⟩ := Option.ite_none_right_eq_some.mp hs
    have hin := (h.ownedThrough hg hrest).1
    obtain ⟨hloc, hhold⟩ := h.unlockCall_idle s.called (Nat.le_refl _)
    have hpresent : (s.sync.hold (.acquisition n)).Present := by
      rw [hin]
      trivial
    have hold : ∀ g' n', Function.update s.guard g none g' = some n' →
        g' ≠ g ∧ s.guard g' = some n' := by
      intro g' n' hg'
      rcases update_eq_iff.mp hg' with ⟨_, hnone⟩ | hold
      · cases hnone
      · exact hold
    refine ⟨h.good.rename hpresent hloc hhold (.inr rfl), ?_, ?_, ?_, ?_⟩
    · intro g' n' hg'
      obtain ⟨hne, hguard⟩ := hold g' n' hg'
      have hnn : n' ≠ n := by
        rintro rfl
        exact hne (h.one g' g n' hguard hg)
      refine (h.busy g' n' hguard).congr rfl ?_
      simp [Sync.State.setHold, hnn]
    · intro g' g'' n' hg' hg''
      exact h.one g' g'' n' (hold g' n' hg').2 (hold g'' n' hg'').2
    · intro m hm
      exact outside_rename (h.acquisition_idle m hm) (by simp)
    · intro m hm
      have hlt : s.called < m := hm
      apply outside_rename (h.unlockCall_idle m (Nat.le_of_lt hlt))
      simpa using Nat.ne_of_gt hlt
  · cases hs

theorem Kept.step (h : Kept s) (hl : l.isMove = false) (hs : step s l = some s') : Kept s' := by
  cases l with
  | sync x =>
    obtain ⟨hplain, hs⟩ := Option.ite_none_right_eq_some.mp hs
    obtain ⟨y, hy, rfl⟩ := Option.map_eq_some_iff.mp hs
    exact h.sync hplain hy
  | create i g => exact h.create hs
  | move g other => cases hl
  | destroy g => exact h.destroy hs

/-- Every call of `unlock` in a run without moves is made by the owner. -/
theorem Kept.along (h : Kept s) (hmoves : ∀ l ∈ as, l.isMove = false) :
    (machine ι γ κ ν).Along (fun s l _ => ∀ n ∈ unlocking s l, OwnedThrough s n) s as := by
  refine Machine.Along.of_invariant (I := Kept) (L := fun l => l.isMove = false) ?_ h hmoves
  intro s l s' h hl hs
  refine ⟨fun n hn => ?_, h.step hl hs⟩
  cases l with
  | destroy g =>
    have hg : s.guard g = some n := by simpa [unlocking] using hn
    simp only [machine, Guard.step, hg] at hs
    exact h.ownedThrough hg (Option.ite_none_right_eq_some.mp hs).1
  | sync | create | move => cases hn

/-! ## The balance -/

/-- The guards that live are as many as there were acquisitions and moves, less
the calls of `unlock`. -/
structure Balance (s₀ : State ι γ κ ν) (as : List (Label ι γ κ ν)) (s : State ι γ κ ν) : Prop where
  acquired : s.acquired = ((machine ι γ κ ν).shown acquisition s₀ as).length
  called : s.called = ((machine ι γ κ ν).shown unlocking s₀ as).length
  live : ∃ guards : Finset γ, (∀ g, g ∈ guards ↔ s.guard g ≠ none) ∧
    guards.card + s.called = s.acquired + as.countP Label.isMove

theorem Balance.step {l : Label ι γ κ ν} (h : Balance s₀ as s)
    (hrun : (machine ι γ κ ν).run s₀ as = some s) (hs : step s l = some s') :
    Balance s₀ (as ++ [l]) s' := by
  obtain ⟨hacquired, hcalled, guards, hguards, hcard⟩ := h
  have hshown : ∀ f : State ι γ κ ν → Label ι γ κ ν → List Nat,
      ((machine ι γ κ ν).shown f s₀ (as ++ [l])).length =
        ((machine ι γ κ ν).shown f s₀ as).length + (f s l).length := by
    intro f
    rw [Machine.shown_concat hrun hs, List.length_append]
  have hcount : (as ++ [l]).countP Label.isMove =
      as.countP Label.isMove + if l.isMove = true then 1 else 0 := by
    rw [List.countP_append, List.countP_singleton]
  cases l with
  | sync x =>
    obtain ⟨_, hs⟩ := Option.ite_none_right_eq_some.mp hs
    obtain ⟨y, _, rfl⟩ := Option.map_eq_some_iff.mp hs
    refine ⟨?_, ?_, guards, hguards, ?_⟩
    · rw [hshown]
      exact hacquired
    · rw [hshown]
      exact hcalled
    · rw [hcount]
      exact hcard
  | create i g =>
    obtain ⟨⟨_, _, hg⟩, ⟨⟩⟩ := Option.ite_none_right_eq_some.mp hs
    have hnew : g ∉ guards := by simp [hguards, hg]
    refine ⟨?_, ?_, insert g guards, ?_, ?_⟩
    · rw [hshown, ← hacquired]
      rfl
    · rw [hshown]
      exact hcalled
    · intro g'
      by_cases hg' : g' = g <;> simp [hg', hguards]
    · rw [hcount, Finset.card_insert_of_notMem hnew]
      simp only [Label.isMove, Bool.false_eq_true, if_false]
      omega
  | move g other =>
    obtain ⟨⟨hg, hother⟩, ⟨⟩⟩ := Option.ite_none_right_eq_some.mp hs
    have hnew : g ∉ guards := by simp [hguards, hg]
    refine ⟨?_, ?_, insert g guards, ?_, ?_⟩
    · rw [hshown]
      exact hacquired
    · rw [hshown]
      exact hcalled
    · intro g'
      by_cases hg' : g' = g
      · simp [hg', hother]
      · simp [hg', hguards]
    · rw [hcount, Finset.card_insert_of_notMem hnew]
      simp only [Label.isMove, if_true]
      omega
  | destroy g =>
    simp only [Guard.step] at hs
    split at hs
    · next n hg =>
      obtain ⟨_, ⟨⟩⟩ := Option.ite_none_right_eq_some.mp hs
      have hold : g ∈ guards := by simp [hguards, hg]
      have hpos := Finset.card_pos.mpr ⟨g, hold⟩
      refine ⟨?_, ?_, guards.erase g, ?_, ?_⟩
      · rw [hshown]
        exact hacquired
      · rw [hshown, ← hcalled]
        simp [unlocking, hg]
      · intro g'
        by_cases hg' : g' = g <;> simp [hg', hguards]
      · rw [hcount, Finset.card_erase_of_mem hold]
        simp only [Label.isMove, Bool.false_eq_true, if_false]
        omega
    · cases hs

theorem balance_run (h0 : Init s₀) (hrun : (machine ι γ κ ν).run s₀ as = some s) :
    Balance s₀ as s := by
  refine Machine.path_invariant (M := machine ι γ κ ν) (I := Balance s₀)
    ⟨h0.acquired, h0.called, ∅, ?_, ?_⟩ (fun as s l s' hrun h hs => h.step hrun hs) hrun
  · simp [h0.guard]
  · simp [h0.acquired, h0.called]

end Lemmas

/-- Every acquisition is followed by one call of `unlock`, made while the mutex
is owned through that acquisition. -/
def OneUnlock (s₀ : State ι γ κ ν) (as : List (Label ι γ κ ν)) : Prop :=
  ((machine ι γ κ ν).shown unlocking s₀ as).length =
      ((machine ι γ κ ν).shown acquisition s₀ as).length ∧
    (machine ι γ κ ν).Along (fun s l _ => ∀ n ∈ unlocking s l, OwnedThrough s n) s₀ as

/-- A run without moves calls `unlock` only for the owner.  When all guards are
gone, there was one call for each acquisition exactly if no guard was moved. -/
theorem one_unlock_iff (s₀ s : State ι γ κ ν) (as : List (Label ι γ κ ν)) (h0 : Init s₀)
    (hrun : (machine ι γ κ ν).run s₀ as = some s) :
    ((∀ l ∈ as, l.isMove = false) →
        (machine ι γ κ ν).Along (fun s l _ => ∀ n ∈ unlocking s l, OwnedThrough s n) s₀ as) ∧
      ((∀ g, s.guard g = none) → (OneUnlock s₀ as ↔ ∀ l ∈ as, l.isMove = false)) := by
  have hkept := Kept.init h0
  obtain ⟨hacquired, hcalled, guards, hguards, hcard⟩ := balance_run h0 hrun
  refine ⟨fun hmoves => hkept.along hmoves, fun hend => ?_⟩
  have hnone : guards.card = 0 := by
    refine Finset.card_eq_zero.mpr (Finset.eq_empty_of_forall_notMem fun g hg => ?_)
    exact (hguards g).mp hg (hend g)
  have hiff : as.countP Label.isMove = 0 ↔ ∀ l ∈ as, l.isMove = false := by
    simp [List.countP_eq_zero]
  constructor
  · intro h
    have hcounts := h.1
    exact hiff.mp (by omega)
  · intro hmoves
    have hcount := hiff.mpr hmoves
    exact ⟨by omega, hkept.along hmoves⟩

/-- The guards of the two examples. -/
inductive Var
  | first
  | moved
  | second
  deriving DecidableEq

instance : Fintype Var where
  elems := {.first, .moved, .second}
  complete g := by cases g <;> decide

def start : State Nat Var Unit Unit where
  sync := {
    state := .nolocked
    resumeList := none
    next := fun _ => none
    cvHead := fun _ => none
    cvTail := fun _ => none
    curHead := fun _ => none
    loc := fun _ => .none
    hold := fun _ => .none
    kind := fun _ => .mutexAwaiter }
  guard _ := none
  acquired := 0
  called := 0

theorem init_start : Init start :=
  ⟨⟨rfl, rfl, fun _ => rfl, fun _ => rfl, fun _ => rfl, fun _ => rfl, fun _ => rfl⟩,
    fun _ => rfl, rfl, rfl⟩

/-- A coroutine calls `lock_guard()` on a mutex, up to the second step of
`register_lock`. -/
def lockGuard (i : Nat) : List (Label Nat Var Unit Unit) :=
  [.sync (.lock (.coroutine i)), .sync (.registerLock (.coroutine i) false),
    .sync (.registerLock (.coroutine i) false)]

/-- Some steps of a call of `unlock`. -/
def unlocks (n steps : Nat) : List (Label Nat Var Unit Unit) :=
  List.replicate steps (.sync (.unlock (.unlockCall n)))

/-- The first coroutine waits with its guard, and the second one has a guard in
the meantime.  It notifies the first one, which gets the lock when the second
guard is destroyed. -/
def twoGuards : List (Label Nat Var Unit Unit) :=
  lockGuard 0 ++ [.create 0 .first, .sync (.wait (.acquisition 0) () false),
    .sync (.registerCv (.acquisition 0)), .sync (.unlock (.acquisition 0)),
    .sync (.unlock (.acquisition 0))] ++ lockGuard 1 ++ [.create 1 .second, .sync (.notifyOne ()),
    .sync (.registerLock (.acquisition 0) false), .sync (.registerLock (.acquisition 0) false),
    .destroy .second] ++ unlocks 0 6 ++ [.sync (.enter (.acquisition 0)), .destroy .first] ++
    unlocks 1 2

theorem one_unlock_two_guards :
    (∃ s, (machine Nat Var Unit Unit).run start twoGuards = some s ∧
      s.sync.state = .nolocked) ∧ OneUnlock start twoGuards := by
  have hrun : ((machine Nat Var Unit Unit).run start twoGuards).map (fun s =>
      decide (s.sync.state = .nolocked ∧ ∀ g, s.guard g = none)) = some true := by decide
  obtain ⟨s, hs, htest⟩ := Option.map_eq_some_iff.mp hrun
  obtain ⟨hstate, hend⟩ := of_decide_eq_true htest
  refine ⟨⟨s, hs, hstate⟩, ?_⟩
  exact ((one_unlock_iff start s twoGuards init_start hs).2 hend).mpr (by decide)

/-- The first coroutine moves its guard and destroys the new one; the second
coroutine has got the lock when the old one is destroyed. -/
def movedGuard : List (Label Nat Var Unit Unit) :=
  lockGuard 0 ++ [.create 0 .first, .move .moved .first, .destroy .moved] ++ unlocks 0 2 ++
    lockGuard 1 ++ [.create 1 .second, .destroy .first] ++ unlocks 1 2

/-- The destructor of a guard that was moved from releases the lock while the
second coroutine is inside. -/
theorem moved_guard_unlocks :
    ((machine Nat Var Unit Unit).run start movedGuard).map (fun s =>
        decide (s.sync.state = .nolocked ∧ s.sync.hold (.acquisition 1) = .inside)) =
        some true ∧
      ((machine Nat Var Unit Unit).run start (movedGuard ++ [.destroy .second])).map (fun s =>
        decide (∀ g, s.guard g = none)) = some true ∧
      (machine Nat Var Unit Unit).shown acquisition start (movedGuard ++ [.destroy .second]) =
        [0, 1] ∧
      (machine Nat Var Unit Unit).shown unlocking start (movedGuard ++ [.destroy .second]) =
        [0, 0, 1] ∧
      ¬ OneUnlock start (movedGuard ++ [.destroy .second]) := by
  have hacquired : (machine Nat Var Unit Unit).shown acquisition start
      (movedGuard ++ [.destroy .second]) = [0, 1] := by decide
  have hcalled : (machine Nat Var Unit Unit).shown unlocking start
      (movedGuard ++ [.destroy .second]) = [0, 0, 1] := by decide
  refine ⟨by decide, by decide, hacquired, hcalled, ?_⟩
  rintro ⟨hcounts, _⟩
  rw [hacquired, hcalled] at hcounts
  cases hcounts

end SheepCoro.Guard
