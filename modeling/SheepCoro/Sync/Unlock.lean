import SheepCoro.Waits.Primitives
import Mathlib.Logic.Relation

/-!
# What one call of `unlock` does when nobody interferes

`unlock` calls `resume()` of the first awaiter in line.  If this is a
`cv_awaiter` whose predicate is false, `resume()` puts the awaiter back on the
list of its condition variable and calls `unlock` again, on the same thread
and before the first call has returned.  `Thread` is this thread with the
mutex, the condition variables and the wait counters.  It has one next step at
a time (`Thread.step`), which is a step of the mutex together with what the
awaiter tells its context.

The calls end (`Ends`) because the stack is finite, and they are not repeated
forever because every awaiter that is refused leaves the line and does not
come back to it without a notification.  `Queues.unlocked` says what the
lines are in the end.
-/

namespace SheepCoro.Sync

open Lib

variable {ι κ ν χ : Type} [DecidableEq ι] [DecidableEq κ] [DecidableEq ν] [DecidableEq χ]

/-- The awaiter has a predicate that is false, so `resume()` does not let it
go on. -/
def Kind.refuses (value : Bool) : Kind κ → Bool
  | .cvAwaiter _ true => !value
  | .cvAwaiter _ false | .mutexAwaiter => false

/-- The awaiter belongs to the condition variable. -/
def Kind.waitsOn (k : κ) : Kind κ → Bool
  | .cvAwaiter k' _ => k' = k
  | .mutexAwaiter => false

/-- A thread in a call of `unlock`. -/
structure Thread (ι κ ν χ : Type) where
  sync : State ι κ ν
  waits : Waits.State ι χ
  /-- The coroutine that called `unlock`, or the awaiter in whose `resume()`
  the thread is. -/
  self : ι

/-- The next step of the thread, `none` when the first call of `unlock` has
returned.  `cond` is what the predicates return; an awaiter comes to its own at
most once. -/
def Thread.step (cond : ι → Bool) (t : Thread ι κ ν χ) : Option (Thread ι κ ν χ) :=
  match t.sync.hold t.self with
  | .evalResume => do
    let sync ← Sync.step t.sync (.eval t.self (cond t.self))
    let waits ← Waits.step t.waits (.cond t.self (cond t.self))
    some { t with sync := sync, waits := waits }
  | .registerCv => do
    let registered ← Waits.step t.waits (.registerWait t.self)
    let waits ← Waits.step registered (.registerCv t.self)
    let sync ← Sync.step t.sync (.registerCv t.self)
    some { t with sync := sync, waits := waits }
  | .handOff toResume => do
    let sync ← Sync.step t.sync (.unlock t.self)
    let waits ← Waits.step t.waits (.resume toResume)
    some { sync := sync, waits := waits, self := toResume }
  | .readResumeList | .casUnlock | .exchange | .reverse _ _ | .popResumeList _ => do
    let sync ← Sync.step t.sync (.unlock t.self)
    some { t with sync := sync }
  | .none | .granted | .inside | .evalWait => none

/-- The thread gets from one state to another. -/
def Runs (cond : ι → Bool) : Thread ι κ ν χ → Thread ι κ ν χ → Prop :=
  Relation.ReflTransGen fun t t' => t.step cond = some t'

/-- The awaiters at the front of the line that are refused. -/
def Queues.refused (kind : ι → Kind κ) (cond : ι → Bool) (q : Queues ι κ ν) : List ι :=
  q.lock.takeWhile fun j => (kind j).refuses (cond j)

/-- The first awaiter in line that is not refused. -/
def Queues.accepted (kind : ι → Kind κ) (cond : ι → Bool) (q : Queues ι κ ν) : Option ι :=
  q.lock.find? fun j => !(kind j).refuses (cond j)

/-- The lines after a call of `unlock`. -/
def Queues.unlocked (kind : ι → Kind κ) (cond : ι → Bool) (q : Queues ι κ ν) :
    Queues ι κ ν where
  lock := q.lock.drop ((q.refused kind cond).length + 1)
  waiters k := q.waiters k ++ (q.refused kind cond).filter fun j => (kind j).waitsOn k
  batch := q.batch

/-! ## One call -/

section Call

variable {cond : ι → Bool} {t t' : Thread ι κ ν χ} {q : Queues ι κ ν} {s s' : State ι κ ν}

/-- The thread executes the body of `unlock`, up to the call of `resume()`. -/
def Hold.Unlocks : Hold ι → Prop
  | .readResumeList | .casUnlock | .exchange | .reverse _ _ | .popResumeList _ => True
  | _ => False

theorem Thread.step_unlock (hi : (t.sync.hold t.self).Unlocks)
    (hs : unlock t.sync t.self = some s') : t.step cond = some { t with sync := s' } := by
  have hstep : Sync.step t.sync (.unlock t.self) = some s' := hs
  unfold Thread.step
  cases hh : t.sync.hold t.self with
  | readResumeList | casUnlock | exchange | reverse | popResumeList => simp [hstep]
  | none | granted | inside | evalWait | evalResume | registerCv | handOff =>
    rw [hh] at hi
    exact hi.elim

/-- The body of `unlock` ends with the line as it was: the lock is free and
nobody was in line, or the first awaiter is about to be resumed. -/
def Ends (cond : ι → Bool) (q : Queues ι κ ν) (t : Thread ι κ ν χ) : Prop :=
  ∃ s', Runs cond t { t with sync := s' } ∧ Refines s' q ∧ s'.kind = t.sync.kind ∧
    (s'.state = .nolocked ∧ s'.hold t.self = .none ∨ ∃ j, s'.hold t.self = .handOff j)

/-- A step of the body leaves the rest of it. -/
theorem Ends.head (h : Refines t.sync q) (hi : (t.sync.hold t.self).Unlocks)
    (hs : unlock t.sync t.self = some s')
    (hends : Refines s' q → Ends cond q { t with sync := s' }) : Ends cond q t := by
  have hafter : q.after t.sync (.unlock t.self) = q := by
    simp only [Queues.after, resumed]
    cases hh : t.sync.hold t.self with
    | handOff =>
      rw [hh] at hi
      exact hi.elim
    | _ => simp
  have hrefines : Refines s' q := by
    have hnext := h.unlock hs
    rwa [hafter] at hnext
  obtain ⟨u, hruns, hu, hkind, hend⟩ := hends hrefines
  have hsame : s'.kind = t.sync.kind := by
    cases unlock_cases hs with
    | move _ _ _ _ _ hkind => exact hkind
    | handOff => rfl
  exact ⟨u, hruns.head (Thread.step_unlock hi hs), hu, hkind.trans hsame, hend⟩

theorem ends_popResumeList {j : ι} (h : Refines t.sync q)
    (hi : t.sync.hold t.self = .popResumeList j) : Ends cond q t := by
  have hs : unlock t.sync t.self =
      some ({ t.sync with resumeList := t.sync.next j }.setHold t.self (.handOff j)) := by
    simp [Sync.unlock, hi]
  apply Ends.head h (by rw [hi]; trivial) hs
  intro hnext
  exact ⟨_, .refl, hnext, rfl, .inr ⟨j, by simp [State.setHold]⟩⟩

/-- The loop that reverses the stack ends: each turn takes one awaiter off
what is still to be reversed. -/
theorem ends_reverse {ys : List ι} {a : ι} {p : Option ι} (h : Refines t.sync q)
    (hi : t.sync.hold t.self = .reverse a p) (hys : Chain t.sync.next (some a) ys) :
    Ends cond q t := by
  induction ys generalizing t a p with
  | nil => cases hys
  | cons y ys ih =>
    obtain ⟨⟨⟩, hrest⟩ := id hys
    have hnot := (List.nodup_cons.mp hys.nodup).1
    cases hn : t.sync.next y with
    | some b =>
      have hs : unlock t.sync t.self =
          some ((t.sync.setNext y p).setHold t.self (.reverse b (some y))) := by
        simp [Sync.unlock, hi, hn]
      apply Ends.head h (by rw [hi]; trivial) hs
      intro hnext
      apply ih (a := b) (p := some y) hnext (by simp [State.setHold])
      rw [hn] at hrest
      exact hrest.update hnot
    | none =>
      have hs : unlock t.sync t.self =
          some ((t.sync.setNext y p).setHold t.self (.popResumeList y)) := by
        simp [Sync.unlock, hi, hn]
      apply Ends.head h (by rw [hi]; trivial) hs
      intro hnext
      exact ends_popResumeList (j := y) hnext (by simp [State.setHold])

theorem ends_exchange (h : Refines t.sync q) (hi : t.sync.hold t.self = .exchange) :
    Ends cond q t := by
  obtain ⟨o, stack, resume, line, hinv, -, -⟩ := id h
  have hne := hinv.exchange t.self hi
  have hchain := hinv.links.stack_chain
  cases stack with
  | nil => exact absurd rfl hne
  | cons a stack =>
    have hstate : t.sync.state = .locked (some a) := by
      cases hst : t.sync.state with
      | nolocked =>
        rw [hst] at hchain
        cases hchain.1
      | locked head =>
        rw [hst] at hchain
        rw [show head = some a from hchain.1]
    have hs : unlock t.sync t.self =
        some ({ t.sync with state := .locked none }.setHold t.self (.reverse a none)) := by
      simp [Sync.unlock, hi, hstate]
    apply Ends.head h (by rw [hi]; trivial) hs
    intro hnext
    rw [hstate] at hchain
    exact ends_reverse (a := a) (p := none) hnext (by simp [State.setHold]) hchain

theorem ends_casUnlock (h : Refines t.sync q) (hi : t.sync.hold t.self = .casUnlock) :
    Ends cond q t := by
  by_cases hstate : t.sync.state = .locked none
  · have hs : unlock t.sync t.self =
        some ({ t.sync with state := .nolocked }.setHold t.self .none) := by
      simp [Sync.unlock, hi, hstate]
    apply Ends.head h (by rw [hi]; trivial) hs
    intro hnext
    exact ⟨_, .refl, hnext, rfl, .inl ⟨rfl, by simp [State.setHold]⟩⟩
  · have hs : unlock t.sync t.self = some (t.sync.setHold t.self .exchange) := by
      simp [Sync.unlock, hi, hstate]
    apply Ends.head h (by rw [hi]; trivial) hs
    intro hnext
    exact ends_exchange hnext (by simp [State.setHold])

variable (cond) in
/-- Every call of `unlock` ends. -/
theorem ends_readResumeList (h : Refines t.sync q)
    (hi : t.sync.hold t.self = .readResumeList) : Ends cond q t := by
  cases hr : t.sync.resumeList with
  | some j =>
    have hs : unlock t.sync t.self = some (t.sync.setHold t.self (.popResumeList j)) := by
      simp [Sync.unlock, hi, hr]
    apply Ends.head h (by rw [hi]; trivial) hs
    intro hnext
    exact ends_popResumeList (j := j) hnext (by simp [State.setHold])
  | none =>
    have hs : unlock t.sync t.self = some (t.sync.setHold t.self .casUnlock) := by
      simp [Sync.unlock, hi, hr]
    apply Ends.head h (by rw [hi]; trivial) hs
    intro hnext
    exact ends_casUnlock hnext (by simp [State.setHold])

end Call

/-! ## The call of `resume()` -/

/-- The awaiter is in line for the lock and counted in its context. -/
structure InLine (kind : ι → Kind κ) (w : Waits.State ι χ) (j : ι) : Prop where
  pc : w.pc j = .queued
  kind : w.kind j = Waits.ofKind (kind j)
  suspendState : (w.kind j).isCv = true → w.suspendState j = true

section Resume

variable {cond : ι → Bool} {t t' : Thread ι κ ν χ} {q : Queues ι κ ν} {s : State ι κ ν}
  {w : Waits.State ι χ} {kind : ι → Kind κ} {i j : ι} {k : κ}

omit [DecidableEq κ] [DecidableEq ν] in
theorem InLine.of_follows (hw : (Waits.machine ι χ).Reachable w) (hf : Waits.Follows s w)
    (hj : s.loc j = .queued) : InLine s.kind w j := by
  obtain ⟨hpos, hawaits, -⟩ := hf j
  rw [hj] at hpos
  have hpc : w.pc j = .queued := by simpa [Waits.ofSync] using hpos
  refine ⟨hpc, hawaits (by simp [hpc]), ?_⟩
  obtain ⟨registered, hinv⟩ := Waits.inv_of_reachable hw
  have hok := hinv.ok j
  rw [hpc] at hok
  exact hok

omit [DecidableEq κ] [DecidableEq χ] in
/-- Another awaiter moves. -/
theorem InLine.goto {p : Waits.Pc} (h : InLine kind w j) (hij : j ≠ i) :
    InLine kind (w.goto i p) j := by
  refine ⟨?_, h.kind, h.suspendState⟩
  simp only [Waits.State.goto, Function.update_of_ne hij]
  exact h.pc

variable (cond) in
/-- The lock is passed on to an awaiter in line. -/
theorem Thread.step_handOff (hi : t.sync.hold t.self = .handOff j)
    (hj : InLine t.sync.kind t.waits j) : ∃ p, t.step cond =
      some { sync := (t.sync.setHold t.self .none).grant j, waits := t.waits.goto j p, self := j } ∧
      p = match t.sync.kind j with
        | .mutexAwaiter => .requeued
        | .cvAwaiter _ hasCond => Waits.resumeCv hasCond := by
  have hs : Sync.step t.sync (.unlock t.self) =
      some ((t.sync.setHold t.self .none).grant j) := by
    simp [Sync.step, Sync.unlock, hi]
  cases hk : t.sync.kind j with
  | mutexAwaiter =>
    have hw : Waits.step t.waits (.resume j) = some (t.waits.goto j .requeued) := by
      simp [Waits.step, hj.pc, hj.kind, hk, Waits.ofKind]
    exact ⟨_, by simp [Thread.step, hi, hs, hw], rfl⟩
  | cvAwaiter k hasCond =>
    have hw : Waits.step t.waits (.resume j) =
        some (t.waits.goto j (Waits.resumeCv hasCond)) := by
      simp [Waits.step, hj.pc, hj.kind, hk, Waits.ofKind]
    exact ⟨_, by simp [Thread.step, hi, hs, hw], rfl⟩

theorem Runs.next {x : Thread ι κ ν χ} (hs : t.step cond = some t') (h : Runs cond t' x) :
    Runs cond t x :=
  Relation.ReflTransGen.head hs h

omit [DecidableEq χ] in
theorem goto_goto (p p' : Waits.Pc) : (w.goto i p).goto i p' = w.goto i p' := by
  simp [Waits.State.goto]

variable (cond) in
/-- The awaiter evaluates its predicate in `resume()`. -/
theorem Thread.step_eval (hi : t.sync.hold t.self = .evalResume)
    (hw : t.waits.pc t.self = .condResume) : t.step cond = some { t with
      sync := t.sync.setHold t.self (if cond t.self then .granted else .registerCv)
      waits := t.waits.goto t.self (if cond t.self then .requeued else .registerWait) } := by
  have hs : Sync.step t.sync (.eval t.self (cond t.self)) =
      some (t.sync.setHold t.self (if cond t.self then .granted else .registerCv)) := by
    simp [Sync.step, hi]
  have hstep : Waits.step t.waits (.cond t.self (cond t.self)) =
      some (t.waits.goto t.self (if cond t.self then .requeued else .registerWait)) := by
    simp [Waits.step, hw]
  simp [Thread.step, hi, hs, hstep]

/-- A waiter that was suspended before is counted already. -/
theorem registerWait_again {hasCond : Bool} (hpc : w.pc i = .registerWait)
    (hkind : w.kind i = .cv hasCond) (hsuspend : w.suspendState i = true) :
    Waits.step w (.registerWait i) = some (w.goto i .registerCv) := by
  have hcnt : Waits.Kind.registerCnt true (.cv hasCond) = 0 := rfl
  have hsame : Function.update w.suspendState i true = w.suspendState := by
    rw [← hsuspend, Function.update_eq_self]
  simp [Waits.step, hpc, hkind, hsuspend, hcnt, hsame, Waits.State.registerWait,
    Waits.State.goto, Waits.Kind.registered]

variable (cond) in
/-- The waiter goes back to its condition variable, with no change of the
counter. -/
theorem Thread.step_registerCv {hasCond : Bool} (hi : t.sync.hold t.self = .registerCv)
    (hkind : t.sync.kind t.self = .cvAwaiter k hasCond)
    (hpc : t.waits.pc t.self = .registerWait) (hwkind : t.waits.kind t.self = .cv hasCond)
    (hsuspend : t.waits.suspendState t.self = true) : t.step cond = some { t with
      sync := Sync.registerCv t.sync t.self k
      waits := t.waits.goto t.self .parked } := by
  have hs : Sync.step t.sync (.registerCv t.self) =
      some (Sync.registerCv t.sync t.self k) := by
    simp [Sync.step, hi, hkind]
  have hregister := registerWait_again hpc hwkind hsuspend
  have hpark : Waits.step (t.waits.goto t.self .registerCv) (.registerCv t.self) =
      some (t.waits.goto t.self .parked) := by
    simp [Waits.step, Waits.State.goto]
  simp [Thread.step, hi, hs, hregister, hpark]

/-- The lines after an awaiter at the front was refused. -/
def Queues.refuse (kind : ι → Kind κ) (q : Queues ι κ ν) (j : ι) : Queues ι κ ν where
  lock := q.lock.tail
  waiters k := q.waiters k ++ [j].filter fun j => (kind j).waitsOn k
  batch := q.batch

/-- An awaiter that has a predicate which is false goes to the tail of its
condition variable and calls `unlock`. -/
theorem runs_refuse (h : Refines t.sync q) (hi : t.sync.hold t.self = .handOff j)
    (hj : InLine t.sync.kind t.waits j) (href : (t.sync.kind j).refuses (cond j) = true) :
    ∃ s', Runs cond t { sync := s', waits := t.waits.goto j .parked, self := j } ∧
      s'.hold j = .readResumeList ∧ s'.kind = t.sync.kind ∧
      Refines s' (q.refuse t.sync.kind j) := by
  have hcv : ∃ k, t.sync.kind j = .cvAwaiter k true ∧ cond j = false := by
    cases hk : t.sync.kind j with
    | mutexAwaiter =>
      rw [hk] at href
      cases href
    | cvAwaiter k hasCond =>
      rw [hk] at href
      cases hasCond with
      | false => cases href
      | true => exact ⟨k, rfl, by simpa [Kind.refuses] using href⟩
  obtain ⟨k, hk, hcond⟩ := hcv
  obtain ⟨rest, hlock, hpass⟩ := h.handOff hi
  obtain ⟨p, hstep, hp⟩ := Thread.step_handOff cond hi hj
  have hwkind := hj.kind
  rw [hk] at hp hwkind
  subst hp
  have hsuspend := hj.suspendState (by rw [hwkind]; rfl)
  -- The three steps: the hand-off, the predicate, and `register_cv`.
  let s₁ := (t.sync.setHold t.self .none).grant j
  have hhold₁ : s₁.hold j = .evalResume := by
    simp [s₁, State.grant, State.setHold, State.setLoc, hk, Kind.resume]
  have heval := Thread.step_eval cond
    (t := { sync := s₁, waits := t.waits.goto j (Waits.resumeCv true), self := j }) hhold₁
    (by simp [Waits.State.goto, Waits.resumeCv])
  simp only [hcond, Bool.false_eq_true, if_false, goto_goto] at heval
  have hpark := Thread.step_registerCv cond (k := k)
    (t := { sync := s₁.setHold j .registerCv, waits := t.waits.goto j .registerWait, self := j })
    (by simp [State.setHold]) hk (by simp [Waits.State.goto]) hwkind hsuspend
  simp only [goto_goto] at hpark
  have hsecond : Refines (s₁.setHold j .registerCv) { q with lock := rest } :=
    hpass.goto (by rw [hhold₁]; trivial) (.inl trivial)
  have hthird := hsecond.registerCv (k := k) (by simp [State.setHold]) hk
  obtain ⟨hkinds, hholds⟩ := registerCv_hold (s := s₁.setHold j .registerCv) (i := j) k
  refine ⟨_, .next hstep (.next heval (.next hpark .refl)), ?_, hkinds, ?_⟩
  · rw [hholds, Function.update_self]
  · have hafter : Queues.after (s₁.setHold j .registerCv) { q with lock := rest }
        (.registerCv j) = q.refuse t.sync.kind j := by
      have hk₁ : (s₁.setHold j .registerCv).kind j = .cvAwaiter k true := hk
      simp only [Queues.after, hk₁, Queues.refuse, hlock, List.tail_cons, Queues.mk.injEq,
        true_and, and_true]
      funext k'
      by_cases hkk : k' = k
      · subst hkk
        simp [hk, Kind.waitsOn]
      · simp [hk, Kind.waitsOn, hkk, Ne.symm hkk]
    rwa [hafter] at hthird

/-- Any other awaiter is submitted. -/
theorem runs_accept (h : Refines t.sync q) (hi : t.sync.hold t.self = .handOff j)
    (hj : InLine t.sync.kind t.waits j) (hacc : (t.sync.kind j).refuses (cond j) = false) :
    ∃ s', Runs cond t { sync := s', waits := t.waits.goto j .requeued, self := j } ∧
      s'.hold j = .granted ∧ s'.kind = t.sync.kind ∧
      Refines s' { q with lock := q.lock.tail } := by
  obtain ⟨rest, hlock, hpass⟩ := h.handOff hi
  obtain ⟨p, hstep, hp⟩ := Thread.step_handOff cond hi hj
  rw [hlock, List.tail_cons]
  let s₁ := (t.sync.setHold t.self .none).grant j
  have hhold₁ : s₁.hold j = (t.sync.kind j).resume := by
    simp [s₁, State.grant, State.setHold, State.setLoc]
  cases hk : t.sync.kind j with
  | mutexAwaiter =>
    rw [hk] at hp hhold₁
    subst hp
    exact ⟨s₁, .next hstep .refl, hhold₁, rfl, hpass⟩
  | cvAwaiter k hasCond =>
    rw [hk] at hp hhold₁ hacc
    subst hp
    cases hasCond with
    | false => exact ⟨s₁, .next hstep .refl, hhold₁, rfl, hpass⟩
    | true =>
      have hcond : cond j = true := by simpa [Kind.refuses] using hacc
      have heval := Thread.step_eval cond
        (t := { sync := s₁, waits := t.waits.goto j (Waits.resumeCv true), self := j }) hhold₁
        (by simp [Waits.State.goto, Waits.resumeCv])
      simp only [hcond, if_true, goto_goto] at heval
      refine ⟨s₁.setHold j .granted, .next hstep (.next heval .refl), ?_, rfl, ?_⟩
      · simp [State.setHold]
      · exact hpass.goto (by rw [hhold₁]; trivial) (.inl trivial)

end Resume

/-! ## All calls -/

section Passes

variable {cond : ι → Bool} {kind : ι → Kind κ} {t t' : Thread ι κ ν χ} {q : Queues ι κ ν}
  {j : ι} {rest : List ι}

section

omit [DecidableEq ι] [DecidableEq ν]

theorem Queues.unlocked_refuse (hlock : q.lock = j :: rest)
    (href : (kind j).refuses (cond j) = true) :
    (q.refuse kind j).unlocked kind cond = q.unlocked kind cond ∧
      (q.refuse kind j).accepted kind cond = q.accepted kind cond := by
  have hrefused : q.refused kind cond = j :: (q.refuse kind j).refused kind cond := by
    simp [Queues.refused, Queues.refuse, hlock, href]
  refine ⟨?_, by simp [Queues.accepted, Queues.refuse, hlock, href]⟩
  simp only [Queues.unlocked, hrefused, Queues.mk.injEq]
  refine ⟨by simp [Queues.refuse, hlock], ?_, rfl⟩
  funext k
  rw [← List.singleton_append (l := (q.refuse kind j).refused kind cond), List.filter_append,
    ← List.append_assoc]
  rfl

theorem Queues.unlocked_accept (hlock : q.lock = j :: rest)
    (hacc : (kind j).refuses (cond j) = false) :
    q.unlocked kind cond = { q with lock := rest } ∧ q.accepted kind cond = some j := by
  have hrefused : q.refused kind cond = [] := by simp [Queues.refused, hlock, hacc]
  refine ⟨?_, by simp [Queues.accepted, hlock, hacc]⟩
  simp [Queues.unlocked, hrefused, hlock]

theorem Queues.unlocked_nil (hlock : q.lock = []) : q.unlocked kind cond = q := by
  obtain ⟨lock, waiters, batch⟩ := q
  subst hlock
  simp [Queues.unlocked, Queues.refused]

end

/-- The first call of `unlock` has returned. -/
structure Returned (cond : ι → Bool) (t : Thread ι κ ν χ) (q : Queues ι κ ν)
    (t' : Thread ι κ ν χ) : Prop where
  runs : Runs cond t t'
  returned : t'.step cond = none
  queues : Refines t'.sync (q.unlocked t.sync.kind cond)
  accepted : ∀ j, q.accepted t.sync.kind cond = some j → t'.sync.hold j = .granted
  nobody : q.accepted t.sync.kind cond = none → t'.sync.state = .nolocked
  numWait : t'.waits.numWait = t.waits.numWait

omit [DecidableEq ι] [DecidableEq κ] [DecidableEq ν] in
theorem Refines.lock_eq_nil {s : State ι κ ν} (h : Refines s q) (hfree : s.state = .nolocked) :
    q.lock = [] := by
  rw [List.eq_nil_iff_forall_not_mem]
  intro i hi
  exact h.good.not_free (h.mem_lock.mp hi) hfree

/-- A run before the first call of `unlock` returns. -/
theorem Returned.head {q' : Queues ι κ ν} {u : Thread ι κ ν χ} (hruns : Runs cond t u)
    (hkind : u.sync.kind = t.sync.kind) (hcount : u.waits.numWait = t.waits.numWait)
    (hq : q'.unlocked t.sync.kind cond = q.unlocked t.sync.kind cond ∧
      q'.accepted t.sync.kind cond = q.accepted t.sync.kind cond)
    (h : Returned cond u q' t') : Returned cond t q t' := by
  obtain ⟨hrest, hnone, hqueues, haccepted, hnobody, hnum⟩ := h
  rw [hkind, hq.1] at hqueues
  rw [hkind, hq.2] at haccepted hnobody
  exact ⟨hruns.trans hrest, hnone, hqueues, haccepted, hnobody, hnum.trans hcount⟩

theorem Thread.step_eq_none (h : t.sync.hold t.self = .none ∨ t.sync.hold t.self = .granted) :
    t.step cond = none := by
  rcases h with h | h <;> simp [Thread.step, h]

variable (cond) in
/-- The calls end: each awaiter that is refused is one less in line. -/
theorem exists_returned (h : Refines t.sync q) (hi : t.sync.hold t.self = .readResumeList)
    (hq : ∀ j ∈ q.lock, InLine t.sync.kind t.waits j) : ∃ t', Returned cond t q t' := by
  induction hlock : q.lock generalizing t q with
  | nil =>
    obtain ⟨s', hruns, hs', hkind, hend⟩ := ends_readResumeList cond h hi
    rcases hend with ⟨hfree, hhold⟩ | ⟨j, hhold⟩
    · refine ⟨_, hruns, Thread.step_eq_none (.inl hhold), ?_, ?_, fun _ => hfree, rfl⟩
      · rwa [Queues.unlocked_nil hlock]
      · simp [Queues.accepted, hlock]
    · obtain ⟨rest, hne, -⟩ := hs'.handOff hhold
      rw [hlock] at hne
      cases hne
  | cons i rest ih =>
    obtain ⟨s', hruns, hs', hkind, hend⟩ := ends_readResumeList cond h hi
    rcases hend with ⟨hfree, -⟩ | ⟨j, hhold⟩
    · have hnil := hs'.lock_eq_nil hfree
      rw [hlock] at hnil
      cases hnil
    · obtain ⟨rest', hcons, -⟩ := hs'.handOff hhold
      rw [hlock] at hcons
      cases hcons
      have hj : InLine t.sync.kind t.waits i := hq i (by simp [hlock])
      have hj' : InLine s'.kind t.waits i := hkind ▸ hj
      have hnot : i ∉ rest := by
        have hnodup := h.lock_nodup
        rw [hlock] at hnodup
        exact (List.nodup_cons.mp hnodup).1
      cases hval : (t.sync.kind i).refuses (cond i) with
      | true =>
        obtain ⟨s₂, hpass, hhold₂, hkind₂, hs₂⟩ := runs_refuse
          (t := { t with sync := s' }) hs' hhold hj' (by rw [hkind]; exact hval)
        have hkinds : s₂.kind = t.sync.kind := hkind₂.trans hkind
        rw [hkind] at hs₂
        have htail : (q.refuse t.sync.kind i).lock = rest := by simp [Queues.refuse, hlock]
        have hline : ∀ k ∈ (q.refuse t.sync.kind i).lock,
            InLine s₂.kind (t.waits.goto i .parked) k := by
          intro k hk
          rw [htail] at hk
          have hki : k ≠ i := fun heq => hnot (heq ▸ hk)
          rw [hkinds]
          exact (hq k (by simp [hlock, hk])).goto hki
        obtain ⟨t', ht'⟩ := ih
          (t := { sync := s₂, waits := t.waits.goto i .parked, self := i }) hs₂ hhold₂ hline htail
        exact ⟨t', ht'.head (hruns.trans hpass) hkinds rfl (Queues.unlocked_refuse hlock hval)⟩
      | false =>
        obtain ⟨s₂, hpass, hhold₂, hkind₂, hs₂⟩ := runs_accept
          (t := { t with sync := s' }) hs' hhold hj' (by rw [hkind]; exact hval)
        obtain ⟨hunlocked, haccepted⟩ := Queues.unlocked_accept (q := q) hlock hval
        refine ⟨_, hruns.trans hpass, Thread.step_eq_none (.inr hhold₂), ?_, ?_, ?_, rfl⟩
        · rw [hunlocked]
          simpa [hlock] using hs₂
        · intro j hj
          rw [haccepted] at hj
          cases hj
          exact hhold₂
        · simp [haccepted]

end Passes

/-- Every run that gets to a call of `unlock` gets to a thread whose lists and
wait counters belong together. -/
theorem exists_thread (c : χ) {s : State ι κ ν} {i : ι}
    (h : (machine ι κ ν).Reachable s) (hi : s.hold i = .readResumeList) :
    ∃ (w : Waits.State ι χ) (stack resume : List ι) (cvs : κ → List ι) (caps : ν → List ι),
      Inv s (some i) stack resume cvs caps ∧ (Waits.machine ι χ).Reachable w ∧
        Waits.Follows s w := by
  obtain ⟨w, hw, hf⟩ := Waits.sync_follows c h
  obtain ⟨o, stack, resume, cvs, caps, hinv⟩ := good_of_reachable h
  have ho := hinv.holder (i := i) (by simp [hi])
  subst ho
  exact ⟨w, stack, resume, cvs, caps, hinv, hw, hf⟩

/-- Without anybody else a call of `unlock` returns, for every division of the
line between the resume list and the stack and for every kind of waiters.  The
lock goes to the first awaiter in line that has no predicate or one that holds.
The awaiters before it are at the tails of their condition variables, in their
order, no wait counter has changed, and those behind it are still in line.
Without such an awaiter the lock is free and the line is empty.  Every call of
`unlock` in a run of the mutex begins with lists and wait counters as they are
assumed here. -/
theorem unlock_hands_on (cond : ι → Bool) (t : Thread ι κ ν χ) {stack resume : List ι}
    {cvs : κ → List ι} {caps : ν → List ι} (h : Inv t.sync (some t.self) stack resume cvs caps)
    (hi : t.sync.hold t.self = .readResumeList) (hw : (Waits.machine ι χ).Reachable t.waits)
    (hf : Waits.Follows t.sync t.waits) :
    (∃ t' stack' resume', Runs cond t t' ∧ t'.step cond = none ∧
      t'.waits.numWait = t.waits.numWait ∧
      let line := resume ++ stack.reverse
      let refused := line.takeWhile fun j => (t.sync.kind j).refuses (cond j)
      let accepted := line.find? fun j => !(t.sync.kind j).refuses (cond j)
      Inv t'.sync accepted stack' resume'
        (fun k => cvs k ++ refused.filter fun j => (t.sync.kind j).waitsOn k) caps ∧
      resume' ++ stack'.reverse = line.drop (refused.length + 1) ∧
      (∀ j, accepted = some j → t'.sync.hold j = .granted) ∧
      (accepted = none → t'.sync.state = .nolocked ∧ t'.sync.resumeList = none ∧
        resume' = [] ∧ stack' = [])) ∧
    ∀ (s : State ι κ ν) (i : ι), (machine ι κ ν).Reachable s → s.hold i = .readResumeList →
      ∃ (w : Waits.State ι χ) (stack resume : List ι) (cvs : κ → List ι) (caps : ν → List ι),
        Inv s (some i) stack resume cvs caps ∧ (Waits.machine ι χ).Reachable w ∧
          Waits.Follows s w := by
  refine ⟨?_, fun s i hs hunlock => exists_thread (t.waits.ctx t.self) hs hunlock⟩
  let q : Queues ι κ ν := ⟨resume ++ stack.reverse, cvs, caps⟩
  have hq : Refines t.sync q := by
    refine ⟨some t.self, stack, resume, resume, h, (inOrder_iff ?_).mpr rfl, rfl⟩
    simp [phase, hi, Hold.Reverses]
  have hline : ∀ j ∈ q.lock, InLine t.sync.kind t.waits j := fun j hj =>
    .of_follows hw hf (hq.mem_lock.mp hj)
  obtain ⟨t', ht'⟩ := exists_returned cond hq hi hline
  obtain ⟨o, stack', resume', line, hinv, horder, hlock⟩ := ht'.queues
  have hholder : o = q.accepted t.sync.kind cond := by
    cases hacc : q.accepted t.sync.kind cond with
    | none => exact hinv.free_iff.mp (ht'.nobody hacc)
    | some j => exact hinv.holder (by simp [ht'.accepted j hacc])
  subst hholder
  have hnot : ¬ (phase t'.sync (q.accepted t.sync.kind cond)).Reverses := by
    cases hacc : q.accepted t.sync.kind cond with
    | none => simp [phase, Hold.Reverses]
    | some j => simp [phase, ht'.accepted j hacc, Hold.Reverses]
  have hsame : line = resume' := (inOrder_iff hnot).mp horder
  subst hsame
  refine ⟨t', stack', line, ht'.runs, ht'.returned, ht'.numWait, hinv, hlock.symm, ht'.accepted,
    fun hacc => ?_⟩
  have hfree := ht'.nobody hacc
  have hnone : q.accepted t.sync.kind cond = none := hacc
  rw [hnone] at hinv
  obtain ⟨hstack, hresume, hlist⟩ := hinv.free
  exact ⟨hfree, hlist, hresume, hstack⟩

/-- One awaiter is on the resume list and two are on the stack.  The last one
wants the lock, the others wait with a predicate. -/
def threeInLine : State (Fin 4) Unit Unit where
  state := .locked (some 3)
  resumeList := some 1
  next i := if i = 3 then some 2 else none
  cvHead _ := none
  cvTail _ := none
  curHead _ := none
  loc i := if i = 0 then .none else .queued
  hold i := if i = 0 then .readResumeList else .none
  kind i := if i = 3 then .mutexAwaiter else .cvAwaiter () true

/-- How the three come to be in line. -/
def threeWait : List (Waits.Label (Fin 4) Unit) :=
  [.await 1 (.cv true) (), .cond 1 false, .registerWait 1, .registerCv 1,
    .await 2 (.cv true) (), .cond 2 false, .registerWait 2, .registerCv 2,
    .wakeUp 1, .registerLock 1 true, .wakeUp 2, .registerLock 2 true,
    .await 3 .mutex (), .registerWait 3, .registerLock 3 true]

theorem inv_threeInLine :
    Inv threeInLine (some 0) [3, 2] [1] (fun _ => []) (fun _ => []) := by
  refine ⟨⟨by decide, by decide, by decide, by decide, by decide⟩,
    ⟨⟨rfl, rfl, rfl⟩, fun _ => rfl, fun _ => rfl, fun _ => rfl, ?_⟩, by decide, by decide,
    ⟨rfl, rfl⟩, by decide, ?_⟩
  · intro i v hi
    by_cases h0 : i = 0 <;> simp [threeInLine, h0] at hi
  · intro i hi
    by_cases h0 : i = 0
    · simp [threeInLine, h0]
    · simp [threeInLine, h0, Hold.Present] at hi

theorem unlock_hands_on_three : ∃ w t' stack resume,
    (Waits.machine (Fin 4) Unit).run (Waits.newState ()) threeWait = some w ∧
      w.numWait () = 3 ∧ Runs (fun _ => false) ⟨threeInLine, w, 0⟩ t' ∧
      t'.sync.hold 3 = .granted ∧ t'.waits.numWait () = 3 ∧
      Inv t'.sync (some 3) stack resume (fun _ => [1, 2]) (fun _ => []) ∧
      resume ++ stack.reverse = [] := by
  have hrun : ((Waits.machine (Fin 4) Unit).run (Waits.newState ()) threeWait).map (fun w =>
      decide (w.numWait () = 3 ∧ w.pc 0 = .idle ∧ ∀ i ≠ 0, w.pc i = .queued ∧
        w.kind i = Waits.ofKind (threeInLine.kind i))) = some true := by decide
  obtain ⟨w, hw, htest⟩ := Option.map_eq_some_iff.mp hrun
  obtain ⟨hcount, hidle, hqueued⟩ := of_decide_eq_true htest
  have hreach : (Waits.machine (Fin 4) Unit).Reachable w :=
    Machine.Reachable.run (.init (Waits.init_newState ())) hw
  have hfollows : Waits.Follows threeInLine w := by
    intro i
    by_cases h0 : i = 0
    · subst h0
      exact ⟨by simp [hidle, threeInLine, Waits.ofSync], fun hne => absurd hidle hne, trivial⟩
    · obtain ⟨hpc, hkind⟩ := hqueued i h0
      exact ⟨by simp [hpc, h0, threeInLine, Waits.ofSync], fun _ => hkind,
        by simp [h0, threeInLine, Waits.OnCv]⟩
  obtain ⟨⟨t', stack, resume, hruns, -, hnum, hinv, hline, hgranted, -⟩, -⟩ :=
    unlock_hands_on (fun _ => false) ⟨threeInLine, w, 0⟩ inv_threeInLine rfl hreach hfollows
  refine ⟨w, t', stack, resume, hw, hcount, hruns, hgranted 3 rfl, ?_, ?_, hline⟩
  · rw [hnum]
    exact hcount
  · exact hinv

end SheepCoro.Sync
