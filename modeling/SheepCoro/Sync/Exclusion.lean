import SheepCoro.Sync.Invariant

/-!
# Mutual exclusion, and nobody is left behind

`Queues` is what the mutex and its condition variables are for: a line of
awaiters for the lock, a line of waiters for each condition variable, and for
each `notify_all` the waiters that it has still to wake.  `Queues.after` says
what a step does to them, without a pointer.  The machine refines that
(`Refines.step`): the lines are what the links reach.

The pushes onto the word are the end of the line for the lock and the
hand-off is its front, whatever `unlock` does with the stack in between.
-/

namespace SheepCoro.Sync

open Lib

variable {ι κ ν : Type} [DecidableEq ι] [DecidableEq κ] [DecidableEq ν]

/-- There are lists for which the invariant holds. -/
def Good (s : State ι κ ν) : Prop :=
  ∃ o stack resume cvs caps, Inv s o stack resume cvs caps

/-- The lines of a mutex and of its condition variables, the oldest first. -/
structure Queues (ι κ ν : Type) where
  /-- The awaiters on the stack and on the resume list. -/
  lock : List ι
  waiters : κ → List ι
  /-- The waiters that a `notify_all` took and has not woken yet. -/
  batch : ν → List ι

/-- The awaiter whose push onto `m_state` succeeds in a step. -/
def pushed (s : State ι κ ν) : Label ι κ ν → List ι
  | .registerLock i spurious =>
    match s.loc i with
    | .cas (.locked head) => if s.state = .locked head ∧ spurious = false then [i] else []
    | _ => []
  | _ => []

/-- The awaiter on which `unlock` calls `resume()` in a step. -/
def resumed (s : State ι κ ν) : Label ι κ ν → List ι
  | .unlock i =>
    match s.hold i with
    | .handOff t => [t]
    | _ => []
  | _ => []

/-- What a step does to the lines. -/
def Queues.after (s : State ι κ ν) (q : Queues ι κ ν) (a : Label ι κ ν) : Queues ι κ ν :=
  match a with
  | .registerLock .. => { q with lock := q.lock ++ pushed s a }
  | .unlock _ => { q with lock := q.lock.drop (resumed s a).length }
  | .registerCv i =>
    match s.kind i with
    | .cvAwaiter k _ => { q with waiters := Function.update q.waiters k (q.waiters k ++ [i]) }
    | .mutexAwaiter => q
  | .notifyOne k => { q with waiters := Function.update q.waiters k (q.waiters k).tail }
  | .notifyAll m k => { q with
      waiters := Function.update q.waiters k []
      batch := Function.update q.batch m (q.waiters k) }
  | .notifyNext m => { q with batch := Function.update q.batch m (q.batch m).tail }
  | _ => q

/-- The lines are what the pointers of the state reach. -/
def Refines (s : State ι κ ν) (q : Queues ι κ ν) : Prop :=
  ∃ o stack resume line, Inv s o stack resume q.waiters q.batch ∧
    InOrder s.next (phase s o) resume line ∧ q.lock = line ++ stack.reverse

section Lemmas

variable {s s' : State ι κ ν} {o : Option ι} {stack resume : List ι} {cvs : κ → List ι}
  {caps : ν → List ι} {q : Queues ι κ ν} {i : ι}

omit [DecidableEq ι] [DecidableEq κ] [DecidableEq ν] in
theorem Refines.good (h : Refines s q) : Good s := by
  obtain ⟨o, stack, resume, -, h, -⟩ := h
  exact ⟨o, stack, resume, q.waiters, q.batch, h⟩

omit [DecidableEq ι] [DecidableEq κ] [DecidableEq ν] in
theorem Good.refines (h : Good s) : ∃ q, Refines s q := by
  obtain ⟨o, stack, resume, cvs, caps, h⟩ := h
  have hline : ∃ line, InOrder s.next (phase s o) resume line := by
    have hside := h.side
    cases hp : phase s o with
    | reverse a t =>
      rw [hp] at hside
      obtain ⟨-, -, ys, zs, hxs, hys, hzs⟩ := hside
      exact ⟨ys.reverse ++ zs, ys, zs, hxs, hys, hzs, rfl⟩
    | none | granted | inside | evalWait | evalResume | registerCv | readResumeList | casUnlock
    | exchange | popResumeList | handOff => exact ⟨resume, rfl⟩
  obtain ⟨line, hline⟩ := hline
  exact ⟨⟨line ++ stack.reverse, cvs, caps⟩, o, stack, resume, line, h, hline, rfl⟩

omit [DecidableEq ι] in
theorem Hold.Present.not_reverses {x : Hold ι} (h : x.Present) : ¬ x.Reverses := by
  cases x <;> first | exact fun hr => hr | exact h.elim

omit [DecidableEq ι] [DecidableEq κ] [DecidableEq ν] in
/-- A step that leaves the lines alone.  The holder is not in the loop of
`unlock` before it, nor the new holder behind it. -/
theorem Refines.keep {o' : Option ι} {line : List ι}
    (h : Inv s' o' stack resume q.waiters q.batch)
    (horder : InOrder s.next (phase s o) resume line) (hlock : q.lock = line ++ stack.reverse)
    (hx : ¬ (phase s o).Reverses) (hx' : ¬ (phase s' o').Reverses) : Refines s' q :=
  ⟨o', stack, resume, line, h, (inOrder_iff hx').mpr ((inOrder_iff hx).mp horder), hlock⟩

section

omit [DecidableEq κ] [DecidableEq ν]

theorem Refines.goto {x : Hold ι} (h : Refines s q) (hi : (s.hold i).Present)
    (hx : x.Present ∨ x = .readResumeList) : Refines (s.setHold i x) q := by
  obtain ⟨o, stack, resume, line, h, horder, hlock⟩ := h
  obtain ⟨rfl, hnew⟩ := h.goto hi hx
  apply Refines.keep hnew horder hlock hi.not_reverses
  simp only [phase, Option.elim, State.setHold, Function.update_self]
  rcases hx with hx | hx
  · exact hx.not_reverses
  · rw [hx]
    exact fun hr => hr

omit [DecidableEq ι] in
theorem Refines.setKind {kind : ι → Kind κ} (h : Refines s q) :
    Refines { s with kind := kind } q := by
  obtain ⟨o, stack, resume, line, h, horder, hlock⟩ := h
  exact ⟨o, stack, resume, line, h.setKind, horder, hlock⟩

/-- A coroutine takes the free lock. -/
theorem Refines.acquire {x : Hold ι} (h : Refines s q) (hfree : s.state = .nolocked)
    (hi : ¬ (s.loc i).Waiting) (hx : x.Present) :
    Refines (({ s with state := .locked none }.setLoc i .none).setHold i x) q := by
  obtain ⟨o, stack, resume, line, h, horder, hlock⟩ := h
  have ho := h.free_iff.mp hfree
  subst ho
  apply Refines.keep (h.acquire hi hx) horder hlock (fun hr => hr)
  simp only [phase, Option.elim, State.setHold, Function.update_self]
  exact hx.not_reverses

/-- An awaiter that is on no list changes its place. -/
theorem Refines.setLoc {l : Loc ι κ} (h : Refines s q) (hi : ¬ (s.loc i).Waiting)
    (hl : ¬ l.Waiting) (hcas : ∀ v, l = .cas v → s.next i = v.head)
    (hpres : ¬ (s.hold i).Present) : Refines (s.setLoc i l) q := by
  obtain ⟨o, stack, resume, line, h, horder, hlock⟩ := h
  exact ⟨o, stack, resume, line, h.setLoc hi hl hcas hpres, horder, hlock⟩

/-- An awaiter that is on no list stores its link. -/
theorem Refines.setNext {p : Option ι} (h : Refines s q) (hi : ¬ (s.loc i).Waiting)
    (hcas : ∀ v, s.loc i ≠ .cas v) : Refines (s.setNext i p) q := by
  obtain ⟨o, stack, resume, line, h, horder, hlock⟩ := h
  obtain ⟨-, hresume, -, -⟩ := h.places.not_mem hi
  exact ⟨o, stack, resume, line, h.setNext hi hcas, horder.update hresume, hlock⟩

omit [DecidableEq ι] in
theorem Refines.not_present (h : Refines s q) (hi : s.loc i ≠ .none) : ¬ (s.hold i).Present := by
  obtain ⟨o, stack, resume, line, h, -⟩ := h
  exact h.not_present hi

/-! ## `register_lock` -/

theorem Refines.push {v : Option ι} (h : Refines s q) (hi : s.loc i = .cas (.locked v))
    (hstate : s.state = .locked v) :
    Refines ({ s with state := .locked (some i) }.setLoc i .queued)
      { q with lock := q.lock ++ [i] } := by
  obtain ⟨o, stack, resume, line, h, horder, hlock⟩ := h
  refine ⟨o, i :: stack, resume, line, h.push hi hstate, horder, ?_⟩
  simp [hlock]

end

theorem Refines.registerLock {spurious : Bool} (h : Refines s q)
    (hs : registerLock s i spurious = some s') :
    Refines s' (q.after s (.registerLock i spurious)) := by
  simp only [Queues.after, pushed]
  cases hi : s.loc i with
  | load =>
    simp only [Sync.registerLock, hi, Option.some.injEq] at hs
    subst hs
    rw [List.append_nil]
    have hout : ¬ (s.loc i).Waiting := by
      rw [hi]
      exact fun hw => hw
    have hnext := h.setNext (p := s.state.head) hout (by simp [hi])
    refine hnext.setLoc hout (fun hw => hw) ?_ (h.not_present (by simp [hi]))
    intro v hv
    cases hv
    simp [State.setNext]
  | cas v =>
    simp only [Sync.registerLock, hi] at hs
    have hout : ¬ (s.loc i).Waiting := by
      rw [hi]
      exact fun hw => hw
    split_ifs at hs with hcond
    · cases v with
      | nolocked =>
        cases hs
        rw [List.append_nil]
        exact h.acquire hcond.1 hout (Kind.resume_present _)
      | locked v =>
        cases hs
        dsimp only
        rw [if_pos hcond]
        exact h.push hi hcond.1
    · cases hs
      have hload := h.setLoc (l := .load) hout (fun hw => hw) (by simp)
        (h.not_present (by simp [hi]))
      cases v with
      | nolocked => simpa using hload
      | locked v => simpa [hcond] using hload
  | none | parked | captured | queued =>
    simp only [Sync.registerLock, hi] at hs
    cases hs

/-! ## `unlock` -/

omit [DecidableEq ι] [DecidableEq κ] [DecidableEq ν] in
/-- The lists by the position of the holder. -/
theorem Refines.holding {x : Hold ι} (h : Refines s q) (hi : s.hold i = x) (hx : x ≠ .none) :
    ∃ stack resume line, Inv s (some i) stack resume q.waiters q.batch ∧
      InOrder s.next x resume line ∧ ResumeSide s.next s.resumeList x resume ∧
      q.lock = line ++ stack.reverse := by
  subst hi
  obtain ⟨o, stack, resume, line, h, horder, hlock⟩ := h
  have ho := h.holder hx
  subst ho
  exact ⟨stack, resume, line, h, horder, h.side, hlock⟩

section

omit [DecidableEq κ] [DecidableEq ν]

/-- The awaiter that gets the lock is the first of the line. -/
theorem Refines.handOff {t : ι} (h : Refines s q) (hi : s.hold i = .handOff t) :
    ∃ rest, q.lock = t :: rest ∧ Refines ((s.setHold i .none).grant t) { q with lock := rest } := by
  obtain ⟨stack, resume, line, h, horder, -, hlock⟩ := h.holding hi nofun
  obtain ⟨ys, hys, hpass⟩ := h.pass hi
  have hline : line = t :: ys := hys ▸ horder
  refine ⟨ys ++ stack.reverse, by rw [hlock, hline, List.cons_append], some t, stack, ys, ys,
    hpass, ?_, rfl⟩
  refine (inOrder_iff ?_).mpr rfl
  simp only [phase, Option.elim, State.grant, State.setHold, State.setLoc, Function.update_self]
  exact (Kind.resume_present _).not_reverses

omit [DecidableEq ι] in
/-- The holder goes to a position outside of the loop, with the line as it
was. -/
theorem Refines.of_inv {x : Hold ι} {line : List ι}
    (h : Inv s' (some i) stack resume q.waiters q.batch) (hhold : s'.hold i = x)
    (hx : ¬ x.Reverses) (hline : line = resume) (hlock : q.lock = line ++ stack.reverse) :
    Refines s' q := by
  refine ⟨some i, stack, resume, line, h, (inOrder_iff ?_).mpr hline, hlock⟩
  simp only [phase, Option.elim, hhold]
  exact hx

theorem Refines.readResumeList (h : Refines s q) (hi : s.hold i = .readResumeList)
    (hs : unlock s i = some s') : Refines s' q := by
  obtain ⟨stack, resume, line, h, horder, hside, hlock⟩ := h.holding hi nofun
  have hchain : Chain s.next s.resumeList resume := hside
  simp only [Sync.unlock, hi] at hs
  cases hr : s.resumeList with
  | some t =>
    rw [hr] at hchain
    simp only [hr, Option.some.injEq] at hs
    subst hs
    have hnew := h.setHold (x := .popResumeList t) (by simp) hchain (by simp) (fun hp => hp.elim)
    exact Refines.of_inv hnew (Function.update_self ..) id horder hlock
  | none =>
    rw [hr, Chain.none_iff] at hchain
    simp only [hr, Option.some.injEq] at hs
    subst hs
    have hnew := h.setHold (x := .casUnlock) (by simp) ⟨hchain, hr⟩ (by simp) (fun hp => hp.elim)
    exact Refines.of_inv hnew (Function.update_self ..) id horder hlock

theorem Refines.casUnlock (h : Refines s q) (hi : s.hold i = .casUnlock)
    (hs : unlock s i = some s') : Refines s' q := by
  obtain ⟨stack, resume, line, h, horder, hside, hlock⟩ := h.holding hi nofun
  simp only [Sync.unlock, hi] at hs
  split_ifs at hs with hstate
  · cases hs
    exact ⟨none, stack, resume, line, h.release hi hstate, horder, hlock⟩
  · cases hs
    have hexch : stack ≠ [] := by
      intro hnil
      -- The word is not `nolocked` either, so it points to somebody.
      have hchain := h.links.stack_chain
      rw [hnil] at hchain
      cases hst : s.state with
      | nolocked => exact h.locked hst
      | locked v =>
        rw [hst] at hchain hstate
        exact hstate (congrArg _ hchain)
    have hnew := h.setHold (x := .exchange) (by simp) hside (fun _ => hexch) (fun hp => hp.elim)
    exact Refines.of_inv hnew (Function.update_self ..) id horder hlock

theorem Refines.exchange (h : Refines s q) (hi : s.hold i = .exchange)
    (hs : unlock s i = some s') : Refines s' q := by
  obtain ⟨stack, resume, line, h, horder, hside, hlock⟩ := h.holding hi nofun
  simp only [Sync.unlock, hi] at hs
  split at hs
  · next a hstate =>
    cases hs
    have hchain := h.links.stack_chain
    rw [hstate] at hchain
    refine ⟨some i, [], stack, stack.reverse, h.exchangeStack hi hstate, ?_, ?_⟩
    · simp only [phase, Option.elim, State.setHold, Function.update_self]
      exact ⟨stack, [], by rw [List.append_nil], hchain, rfl, by rw [List.append_nil]⟩
    · have hnil : line = [] := by
        rw [show line = resume from horder]
        exact hside.1
      simp [hlock, hnil]
  · cases hs

theorem Refines.reverse {a : ι} {t : Option ι} (h : Refines s q) (hi : s.hold i = .reverse a t)
    (hs : unlock s i = some s') : Refines s' q := by
  obtain ⟨stack, resume, line, h, horder, -, hlock⟩ := h.holding hi nofun
  have hturn : ∀ x ys, Inv ((s.setNext a t).setHold i x) (some i) stack ys q.waiters q.batch →
      InOrder (Function.update s.next a t) x ys line →
      Refines ((s.setNext a t).setHold i x) q := by
    intro x ys hys hline
    refine ⟨some i, stack, ys, line, hys, ?_, hlock⟩
    simpa [phase, State.setHold, State.setNext] using hline
  simp only [Sync.unlock, hi] at hs
  cases hn : s.next a with
  | some b =>
    simp only [hn, Option.some.injEq] at hs
    subst hs
    obtain ⟨ys, hys, hline⟩ := h.reverse hi horder (x := .reverse b (some a)) (by rw [hn])
    exact hturn _ ys hys hline
  | none =>
    simp only [hn, Option.some.injEq] at hs
    subst hs
    obtain ⟨ys, hys, hline⟩ := h.reverse hi horder (x := .popResumeList a) (by rw [hn])
    exact hturn _ ys hys hline

theorem Refines.popResumeList {t : ι} (h : Refines s q) (hi : s.hold i = .popResumeList t)
    (hs : unlock s i = some s') : Refines s' q := by
  obtain ⟨stack, resume, line, h, horder, -, hlock⟩ := h.holding hi nofun
  simp only [Sync.unlock, hi, Option.some.injEq] at hs
  subst hs
  exact Refines.of_inv (h.popResumeList hi) (Function.update_self ..) id horder hlock

end

theorem Refines.unlock (h : Refines s q) (hs : unlock s i = some s') :
    Refines s' (q.after s (.unlock i)) := by
  simp only [Queues.after, resumed]
  cases hi : s.hold i with
  | handOff t =>
    simp only [Sync.unlock, hi, Option.some.injEq] at hs
    subst hs
    obtain ⟨rest, hlock, hrest⟩ := h.handOff hi
    simpa [hlock] using hrest
  | readResumeList => exact h.readResumeList hi hs
  | casUnlock => exact h.casUnlock hi hs
  | exchange => exact h.exchange hi hs
  | reverse a t => exact h.reverse hi hs
  | popResumeList t => exact h.popResumeList hi hs
  | none | granted | inside | evalWait | evalResume | registerCv =>
    simp only [Sync.unlock, hi] at hs
    cases hs

/-! ## Every step -/

theorem Refines.registerCv {k : κ} {hasCond : Bool} (h : Refines s q)
    (hi : s.hold i = .registerCv) (hkind : s.kind i = .cvAwaiter k hasCond) :
    Refines (registerCv s i k) (q.after s (.registerCv i)) := by
  obtain ⟨stack, resume, line, h, horder, -, hlock⟩ := h.holding hi nofun
  simp only [Queues.after, hkind]
  have hhold : phase (Sync.registerCv s i k) (some i) = .readResumeList := by
    simp only [phase, Option.elim, Sync.registerCv]
    split <;> simp [State.setLoc, State.setNext, State.setHold]
  refine ⟨some i, stack, resume, line, h.registerCv hi, ?_, hlock⟩
  rw [hhold]
  exact horder

theorem Refines.step {a : Label ι κ ν} (h : Refines s q) (hs : step s a = some s') :
    Refines s' (q.after s a) := by
  cases step_cases hs with
  | @lock i hloc hhold =>
    have hmove := h.setLoc (i := i) (l := .load) (by rw [hloc]; exact fun hw => hw)
      (fun hw => hw) (by simp) (by rw [hhold]; exact fun hp => hp)
    exact hmove.setKind
  | @tryLock i hloc _ hfree =>
    have hacq := h.acquire (i := i) (x := .inside) hfree (by rw [hloc]; exact fun hw => hw) trivial
    have hsame : ({ s with state := .locked none } : State ι κ ν).setLoc i .none =
        { s with state := .locked none } := by
      simp only [State.setLoc, ← hloc, Function.update_eq_self]
    rw [hsame] at hacq
    exact hacq
  | tryLockFails => exact h
  | registerLock hreg => exact h.registerLock hreg
  | enter hhold => exact h.goto (by rw [hhold]; trivial) (.inl trivial)
  | callUnlock hhold => exact h.goto (by rw [hhold]; trivial) (.inr rfl)
  | unlock hunlock => exact h.unlock hunlock
  | wait hhold =>
    refine Refines.setKind (h.goto (by rw [hhold]; trivial) (.inl ?_))
    split <;> trivial
  | evalWait hhold | evalResume hhold =>
    apply h.goto (by rw [hhold]; trivial)
    left
    split <;> trivial
  | registerCv hhold hkind => exact h.registerCv hhold hkind
  | notifyOne =>
    obtain ⟨o, stack, resume, line, h, horder, hlock⟩ := h
    refine ⟨o, stack, resume, line, h.notifyOne, ?_, hlock⟩
    simp only [Sync.notifyOne]
    split <;> exact horder
  | notifyAll hm =>
    obtain ⟨o, stack, resume, line, h, horder, hlock⟩ := h
    exact ⟨o, stack, resume, line, h.notifyAll hm, horder, hlock⟩
  | notifyNext ha =>
    obtain ⟨o, stack, resume, line, h, horder, hlock⟩ := h
    exact ⟨o, stack, resume, line, h.notifyNext ha, horder, hlock⟩
  | reuse hloc =>
    refine h.setNext ?_ (by simp [hloc])
    rw [hloc]
    exact fun hw => hw

theorem Good.step {a : Label ι κ ν} (h : Good s) (hs : step s a = some s') : Good s' := by
  obtain ⟨q, hq⟩ := h.refines
  exact (hq.step hs).good

omit [DecidableEq ι] [DecidableEq κ] [DecidableEq ν] in
theorem Init.good (h : Init s) : Good s := by
  refine ⟨none, [], [], fun _ => [], fun _ => [], ⟨?_, ?_, ?_, ?_, ?_⟩, ⟨?_, ?_, ?_, ?_, ?_⟩, ?_,
    ?_, ⟨rfl, h.resumeList⟩, ?_, ?_⟩
  · simp [h.loc]
  · simp [h.loc]
  · simp [h.loc]
  · simp
  · simp
  · simp [h.state, MutexState.head]
  · intro k
    rw [h.cvHead k]
    rfl
  · intro k
    rw [h.cvTail k]
    rfl
  · intro m
    rw [h.curHead m]
    rfl
  · simp [h.loc]
  · simp [h.hold]
  · simp [h.state]
  · simp [h.hold]
  · intro i _
    exact h.loc i

omit [DecidableEq ι] [DecidableEq κ] [DecidableEq ν] in
/-- There is at most one holder. -/
theorem Good.unique {j : ι} (h : Good s) (hi : s.hold i ≠ .none) (hj : s.hold j ≠ .none) :
    i = j := by
  obtain ⟨o, stack, resume, cvs, caps, hinv⟩ := h
  have hsame := (hinv.holder hi).symm.trans (hinv.holder hj)
  exact Option.some.inj hsame

omit [DecidableEq κ] [DecidableEq ν] in
/-- The word is `nolocked` exactly when nobody holds the lock. -/
theorem Good.free_iff (h : Good s) : s.state = .nolocked ↔ ∀ i, s.hold i = .none := by
  obtain ⟨o, stack, resume, cvs, caps, hinv⟩ := h
  rw [hinv.free_iff]
  constructor
  · intro ho i
    by_contra hi
    rw [hinv.holder hi] at ho
    cases ho
  · intro hnobody
    cases ho : o with
    | none => rfl
    | some i => exact absurd (hnobody i) ((hinv.hold_iff i).mpr ho)

omit [DecidableEq ι] [DecidableEq κ] [DecidableEq ν] in
/-- Who holds the lock outside of `unlock` is on no list. -/
theorem Good.loc_eq_none (h : Good s) (hi : (s.hold i).Present) : s.loc i = .none := by
  obtain ⟨o, stack, resume, cvs, caps, hinv⟩ := h
  exact hinv.present i hi

omit [DecidableEq κ] [DecidableEq ν] in
/-- The lock is handed to somebody who waits for it. -/
theorem Good.handOff_queued {t : ι} (h : Good s) (hi : s.hold i = .handOff t) :
    s.loc t = .queued := by
  obtain ⟨o, stack, resume, cvs, caps, hinv⟩ := h
  have ho := hinv.holder (i := i) (by simp [hi])
  subst ho
  obtain ⟨ys, rfl, -⟩ := hinv.pass hi
  exact (hinv.places.queued_iff t).mpr (.inr (List.mem_cons_self ..))

omit [DecidableEq ι] [DecidableEq κ] [DecidableEq ν] in
/-- `notify_one` takes somebody who is parked. -/
theorem Good.cvHead_parked {k : κ} (h : Good s) (hi : s.cvHead k = some i) :
    s.loc i = .parked k := by
  obtain ⟨o, stack, resume, cvs, caps, hinv⟩ := h
  have hchain := hinv.links.cv_chain k
  rw [hi] at hchain
  obtain ⟨xs, hxs, -⟩ := Chain.some_iff.mp hchain
  exact (hinv.places.parked_iff i k).mpr (by simp [hxs])

omit [DecidableEq ι] [DecidableEq κ] [DecidableEq ν] in
/-- The loop of `notify_all` wakes somebody whom it took. -/
theorem Good.curHead_captured {m : ν} (h : Good s) (hi : s.curHead m = some i) :
    s.loc i = .captured := by
  obtain ⟨o, stack, resume, cvs, caps, hinv⟩ := h
  have hchain := hinv.links.cap_chain m
  rw [hi] at hchain
  obtain ⟨xs, hxs, -⟩ := Chain.some_iff.mp hchain
  exact (hinv.places.captured_iff i).mpr ⟨m, by simp [hxs]⟩

theorem good_of_reachable (h : (machine ι κ ν).Reachable s) : Good s :=
  h.invariant (I := Good) (fun _ h0 => Init.good h0) fun _ _ _ _ hg hs => hg.step hs

end Lemmas

/-- In every reachable state at most one coroutine owns the lock, the word is
`nolocked` exactly when nobody does, and then nobody is on a list of the
mutex. -/
theorem mutual_exclusion (s : State ι κ ν) (h : (machine ι κ ν).Reachable s) :
    (∀ i j, s.hold i ≠ .none → s.hold j ≠ .none → i = j) ∧
    (s.state = .nolocked ↔ ∀ i, s.hold i = .none) ∧
    (s.state = .nolocked → s.state.head = none ∧ s.resumeList = none ∧
      ∀ i, s.loc i ≠ .queued) := by
  have hgood := good_of_reachable h
  refine ⟨fun i j => hgood.unique, hgood.free_iff, ?_⟩
  obtain ⟨o, stack, resume, cvs, caps, hinv⟩ := hgood
  intro hfree
  have ho := hinv.free_iff.mp hfree
  subst ho
  obtain ⟨hstack, hresume, hlist⟩ := hinv.free
  refine ⟨by rw [hfree]; rfl, hlist, fun i hi => ?_⟩
  have hmem := (hinv.places.queued_iff i).mp hi
  simp [hstack, hresume] at hmem

/-- A new mutex. -/
def emptyState : State Nat Unit Unit where
  state := .nolocked
  resumeList := none
  next _ := none
  cvHead _ := none
  cvTail _ := none
  curHead _ := none
  loc _ := .none
  hold _ := .none
  kind _ := .mutexAwaiter

theorem init_emptyState : Init emptyState :=
  ⟨rfl, rfl, fun _ => rfl, fun _ => rfl, fun _ => rfl, fun _ => rfl, fun _ => rfl⟩

/-- Two coroutines are pushed while a third holds the lock.  The second of
them has loaded an old word and tries again; the third unlocks, and the lock
goes to the one that was pushed first. -/
theorem mutual_exclusion_three :
    ∃ s, (machine Nat Unit Unit).Reachable s ∧
      (s.hold 1 = .granted ∧ s.resumeList = some 2 ∧ s.loc 2 = .queued) ∧
      s.state ≠ .nolocked := by
  have hrun : ((machine Nat Unit Unit).run emptyState
      [.tryLock 0, .lock 1, .lock 2, .registerLock 1 false, .registerLock 2 false,
        .registerLock 1 false, .registerLock 2 false, .registerLock 2 false,
        .registerLock 2 false, .callUnlock 0, .unlock 0, .unlock 0, .unlock 0, .unlock 0,
        .unlock 0, .unlock 0, .unlock 0]).map (fun s =>
      decide (s.hold 1 = .granted ∧ s.resumeList = some 2 ∧ s.loc 2 = .queued)) =
        some true := by decide
  obtain ⟨s, hs, htest⟩ := Machine.reachable_of_run init_emptyState hrun
  have htest := of_decide_eq_true htest
  refine ⟨s, hs, htest, fun hfree => ?_⟩
  exact ((mutual_exclusion s hs).2.2 hfree).2.2 2 htest.2.2

end SheepCoro.Sync
