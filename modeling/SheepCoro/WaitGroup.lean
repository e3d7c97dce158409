import SheepCoro.Lib.Machine
import SheepCoro.Lib.Drain
import Mathlib

/-!
# The wait group

`src/comp/wait_group.cpp` as a machine with one step for each atomic
operation.  Any number of coroutines (`ι`) call `wait`, any number of
callers (`δ`) call `done`, and `add` is one atomic step of nobody in
particular.  An awaiter lives in the frame of the coroutine that waits, so a
coroutine and its awaiter have the same name, and a second `wait` of the
same coroutine uses the same storage again.

The count and the list are two atomics.  `wait` tests the count and then
pushes onto the list; `done` decrements the count and then drains the list.
`WaitGroup.lost_wakeup` is a run in which a waiter is pushed after the drain
of the `done` that brought the count to zero.  `waiters_drained` is the
result for the runs in which this does not happen.

`await_suspend` also registers the coroutine with its context.  The counter
of the context is not part of this machine.
-/

namespace SheepCoro.WaitGroup

open Lib

/-! ## The machine -/

/-- Where a coroutine is in `awaiter::await_suspend`. -/
inductive WaitPc (ι : Type)
  /-- Not in a `wait` call. -/
  | out
  /-- About to load `m_count`. -/
  | loadCount
  /-- The count was not zero; about to load `m_state`. -/
  | loadHead
  /-- `m_next` holds the loaded head; about to compare and exchange. -/
  | casHead (head : Option ι)
  /-- `await_suspend` returned `true`. -/
  | suspended
deriving DecidableEq

/-- Where a caller is in `wait_group::done`. -/
inductive DonePc (ι : Type)
  | out
  /-- `fetch_sub` returned `1`; about to exchange the list. -/
  | exchange
  /-- About to call `head->resume()`. -/
  | resume (head : ι)
  /-- About to read `head->m_next`. -/
  | advance (head : ι)
deriving DecidableEq

/-- The wait group, the links of the awaiters and the position of every
call. -/
structure State (ι δ : Type) where
  /-- `m_count`, an `int32_t`. -/
  count : Int
  /-- `m_state`, the head of the waiter list. -/
  head : Option ι
  /-- `m_next` of every awaiter. -/
  next : ι → Option ι
  wait : ι → WaitPc ι
  done : δ → DonePc ι
  /-- Units that were added and that no `done` has taken yet. -/
  owed : Nat

inductive Label (ι δ : Type)
  | wait (i : ι)
  | loadCount (i : ι)
  | loadHead (i : ι)
  | casHead (i : ι) (spurious : Bool)
  | add (n : Nat)
  | done (d : δ)
  | exchange (d : δ)
  | resume (d : δ)
  | advance (d : δ)
  /-- The storage of an awaiter outside of a call holds something else. -/
  | reuse (i : ι) (v : Option ι)

/-- The value of an `int32_t` after it wrapped. -/
def wrap32 (x : Int) : Int := x.bmod (2 ^ 32)

/-- The loop condition `head != nullptr`. -/
def loopPc {ι : Type} : Option ι → DonePc ι
  | none => .out
  | some a => .resume a

variable {ι δ : Type} [DecidableEq ι] [DecidableEq δ]

/-- One atomic step.  A caller of `done` takes one of the units that were
added, and `resume` of a coroutine that is not suspended has no defined
result. -/
def step (s : State ι δ) : Label ι δ → Option (State ι δ)
  | .wait i =>
    if s.wait i = .out then
      some { s with
        next := Function.update s.next i none
        wait := Function.update s.wait i .loadCount }
    else none
  | .loadCount i =>
    if s.wait i = .loadCount then
      some { s with
        wait := Function.update s.wait i (if s.count = 0 then .out else .loadHead) }
    else none
  | .loadHead i =>
    if s.wait i = .loadHead then
      some { s with
        next := Function.update s.next i s.head
        wait := Function.update s.wait i (.casHead s.head) }
    else none
  | .casHead i spurious =>
    match s.wait i with
    | .casHead head =>
      if s.head = head ∧ spurious = false then
        some { s with
          head := some i
          wait := Function.update s.wait i .suspended }
      else
        some { s with wait := Function.update s.wait i .loadCount }
    | _ => none
  | .add n =>
    if n < 2 ^ 31 then
      some { s with count := wrap32 (s.count + n), owed := s.owed + n }
    else none
  | .done d =>
    if s.done d = .out ∧ 0 < s.owed then
      some { s with
        count := wrap32 (s.count - 1)
        owed := s.owed - 1
        done := Function.update s.done d (if s.count = 1 then .exchange else .out) }
    else none
  | .exchange d =>
    if s.done d = .exchange then
      some { s with
        head := none
        done := Function.update s.done d (loopPc s.head) }
    else none
  | .resume d =>
    match s.done d with
    | .resume a =>
      if s.wait a = .suspended then
        some { s with
          wait := Function.update s.wait a .out
          done := Function.update s.done d (.advance a) }
      else none
    | _ => none
  | .advance d =>
    match s.done d with
    | .advance a =>
      some { s with done := Function.update s.done d (loopPc (s.next a)) }
    | _ => none
  | .reuse i v =>
    if s.wait i = .out then
      some { s with next := Function.update s.next i v }
    else none

/-- What a step does, one case for each way to go on. -/
inductive StepCase (s : State ι δ) : Label ι δ → State ι δ → Prop
  | wait {i : ι} (hi : s.wait i = .out) :
    StepCase s (.wait i) { s with
      next := Function.update s.next i none
      wait := Function.update s.wait i .loadCount }
  | loadCount {i : ι} (hi : s.wait i = .loadCount) :
    StepCase s (.loadCount i) { s with
      wait := Function.update s.wait i (if s.count = 0 then .out else .loadHead) }
  | loadHead {i : ι} (hi : s.wait i = .loadHead) :
    StepCase s (.loadHead i) { s with
      next := Function.update s.next i s.head
      wait := Function.update s.wait i (.casHead s.head) }
  | push {i : ι} (hi : s.wait i = .casHead s.head) :
    StepCase s (.casHead i false) { s with
      head := some i
      wait := Function.update s.wait i .suspended }
  | casFails {i : ι} {spurious : Bool} {head : Option ι} (hi : s.wait i = .casHead head) :
    StepCase s (.casHead i spurious) { s with wait := Function.update s.wait i .loadCount }
  | add {n : Nat} (hn : n < 2 ^ 31) :
    StepCase s (.add n) { s with count := wrap32 (s.count + n), owed := s.owed + n }
  | done {d : δ} (hd : s.done d = .out) (howed : 0 < s.owed) :
    StepCase s (.done d) { s with
      count := wrap32 (s.count - 1)
      owed := s.owed - 1
      done := Function.update s.done d (if s.count = 1 then .exchange else .out) }
  | exchange {d : δ} (hd : s.done d = .exchange) :
    StepCase s (.exchange d) { s with
      head := none
      done := Function.update s.done d (loopPc s.head) }
  | resume {d : δ} {a : ι} (hd : s.done d = .resume a) (ha : s.wait a = .suspended) :
    StepCase s (.resume d) { s with
      wait := Function.update s.wait a .out
      done := Function.update s.done d (.advance a) }
  | advance {d : δ} {a : ι} (hd : s.done d = .advance a) :
    StepCase s (.advance d) { s with done := Function.update s.done d (loopPc (s.next a)) }
  | reuse {i : ι} {v : Option ι} (hi : s.wait i = .out) :
    StepCase s (.reuse i v) { s with next := Function.update s.next i v }

theorem step_cases {s s' : State ι δ} {l : Label ι δ} (hs : step s l = some s') :
    StepCase s l s' := by
  cases l with
  | wait i =>
    obtain ⟨hi, ⟨⟩⟩ := Option.ite_none_right_eq_some.mp hs
    exact .wait hi
  | loadCount i =>
    obtain ⟨hi, ⟨⟩⟩ := Option.ite_none_right_eq_some.mp hs
    exact .loadCount hi
  | loadHead i =>
    obtain ⟨hi, ⟨⟩⟩ := Option.ite_none_right_eq_some.mp hs
    exact .loadHead hi
  | casHead i spurious =>
    simp only [step] at hs
    split at hs
    · rename_i p hi
      split at hs
      · rename_i hp
        cases hs
        obtain ⟨rfl, rfl⟩ := hp
        exact .push hi
      · cases hs
        exact .casFails hi
    · cases hs
  | add n =>
    obtain ⟨hn, ⟨⟩⟩ := Option.ite_none_right_eq_some.mp hs
    exact .add hn
  | done d =>
    obtain ⟨⟨hd, howed⟩, ⟨⟩⟩ := Option.ite_none_right_eq_some.mp hs
    exact .done hd howed
  | exchange d =>
    obtain ⟨hd, ⟨⟩⟩ := Option.ite_none_right_eq_some.mp hs
    exact .exchange hd
  | resume d =>
    simp only [step] at hs
    split at hs
    · rename_i a hd
      obtain ⟨ha, ⟨⟩⟩ := Option.ite_none_right_eq_some.mp hs
      exact .resume hd ha
    · cases hs
  | advance d =>
    simp only [step] at hs
    split at hs
    · rename_i a hd
      cases hs
      exact .advance hd
    · cases hs
  | reuse i v =>
    obtain ⟨hi, ⟨⟩⟩ := Option.ite_none_right_eq_some.mp hs
    exact .reuse hi

/-- `wait_group(int count)` with a count that is not negative. -/
structure Init (s : State ι δ) : Prop where
  count_eq : s.count = s.owed
  owed_lt : s.owed < 2 ^ 31
  head_none : s.head = none
  wait_out : ∀ i, s.wait i = .out
  done_out : ∀ d, s.done d = .out

variable (ι δ) in
/-- The machine of one wait group. -/
def machine : Machine (State ι δ) (Label ι δ) where
  init := Init
  step := step

/-- No `add`, `done` or `wait` call is in progress. -/
def Quiescent (s : State ι δ) : Prop :=
  (∀ i, s.wait i = .out ∨ s.wait i = .suspended) ∧ ∀ d, s.done d = .out

/-! ## The lost wake-up -/

/-- A fresh wait group with a count of `n`. -/
def start (n : Nat) : State Unit Unit where
  count := n
  head := none
  next := fun _ => none
  wait := fun _ => .out
  done := fun _ => .out
  owed := n

theorem start_init {n : Nat} (hn : n < 2 ^ 31) : (machine Unit Unit).init (start n) :=
  ⟨rfl, hn, rfl, fun _ => rfl, fun _ => rfl⟩

/-- The waiter sees the count `1`, the only `done` brings it to `0` and
drains an empty list, and then the waiter is pushed. -/
theorem lost_wakeup :
    ∃ s : State Unit Unit, (machine Unit Unit).Reachable s ∧ Quiescent s ∧
      s.count = 0 ∧ s.head ≠ none ∧ ∃ i, s.wait i = .suspended := by
  have hrun : (((machine Unit Unit).run (start 1)
      [.wait (), .loadCount (), .done (), .exchange (), .loadHead (),
        .casHead () false]).map fun s =>
      decide (s.wait () = .suspended ∧ s.done () = .out ∧ s.count = 0 ∧
        s.head ≠ none)) = some true := by decide
  obtain ⟨s, hs, htest⟩ := Machine.reachable_of_run (start_init (by decide)) hrun
  obtain ⟨hwait, hdone, hcount, hhead⟩ := of_decide_eq_true htest
  exact ⟨s, hs, ⟨fun _ => .inr hwait, fun _ => hdone⟩, hcount, hhead, (), hwait⟩

/-! ## Runs without the race -/

/-- A waiter that has seen a count other than zero and that will push itself
onto an empty list: it is about to load the head, or it loaded a null head. -/
def InWindow (s : State ι δ) (i : ι) : Prop :=
  s.wait i = .loadHead ∨ s.wait i = .casHead none

/-- The condition on a step.  No waiter is in the window when a `done` drains
the list, `add` does not overflow the `int32_t`, and the storage of an
awaiter is left alone until the loop that resumed it has read its link. -/
def NoRace (s : State ι δ) : Label ι δ → Prop
  | .exchange _ => ∀ i, ¬ InWindow s i
  | .add n => s.count + n < 2 ^ 31
  | .wait i | .reuse i _ => ∀ d, s.done d ≠ .advance i
  | _ => True

/-- Where the loop of `done` reads its next awaiter from. -/
def cursor (s : State ι δ) (d : δ) : Option ι :=
  match s.done d with
  | .resume a => some a
  | .advance a => s.next a
  | _ => none

/-- The lists behind the pointers: `stack` hangs off `m_state`, and
`captured d` is what the loop of `d` has still to resume.  A coroutine is
suspended exactly when it is on one of them. -/
structure Lists (s : State ι δ) (stack : List ι) (captured : δ → List ι) : Prop where
  stack_chain : Chain s.next s.head stack
  captured_chain : ∀ d, Chain s.next (cursor s d) (captured d)
  suspended_iff : ∀ i, s.wait i = .suspended ↔ i ∈ stack ∨ ∃ d, i ∈ captured d
  stack_disjoint : ∀ d i, i ∈ captured d → i ∉ stack
  captured_disjoint : ∀ d d' i, i ∈ captured d → i ∈ captured d' → d = d'

/-- The invariant of the runs without the race. -/
structure Inv (s : State ι δ) : Prop where
  count_eq : s.count = s.owed
  owed_lt : s.owed < 2 ^ 31
  cas_next : ∀ i h, s.wait i = .casHead h → s.next i = h
  advance_out : ∀ d a, s.done d = .advance a → s.wait a = .out
  /-- Whoever is on the list, or will push itself onto an empty one, still
  has a `done` ahead that drains it. -/
  drain_ahead : (s.head ≠ none ∨ ∃ i, InWindow s i) →
    s.owed ≠ 0 ∨ ∃ d, s.done d = .exchange
  lists : ∃ stack captured, Lists s stack captured

theorem wrap32_eq {x : Int} (h0 : 0 ≤ x) (h1 : x < 2 ^ 31) : wrap32 x = x := by
  unfold wrap32
  exact Int.bmod_eq_of_le (by omega) (by omega)

/-! ### The links

Nothing here looks at the count. -/

/-- The storage of an awaiter is left alone until the loop that resumed it has
read its link. -/
def KeepsLinks (s : State ι δ) : Label ι δ → Prop
  | .wait i | .reuse i _ => ∀ d, s.done d ≠ .advance i
  | _ => True

/-- The part of the invariant that is about the links. -/
structure Linked (s : State ι δ) (stack : List ι) (captured : δ → List ι) : Prop where
  cas_next : ∀ i h, s.wait i = .casHead h → s.next i = h
  advance_out : ∀ d a, s.done d = .advance a → s.wait a = .out
  lists : Lists s stack captured

section Links

variable {s s' : State ι δ} {stack : List ι} {captured : δ → List ι} {i a : ι} {d : δ}
  {c : Int} {o : Nat}

omit [DecidableEq ι] [DecidableEq δ] in
theorem lists_iff : Lists s stack captured ↔
    Drain s.head s.next (cursor s) (fun i => s.wait i = .suspended) stack captured := by
  constructor
  · intro h
    exact ⟨h.stack_chain, h.captured_chain, h.suspended_iff, h.stack_disjoint,
      h.captured_disjoint⟩
  · intro h
    exact ⟨h.stack_chain, h.captured_chain, h.waiting_iff, h.stack_disjoint,
      h.captured_disjoint⟩

omit [DecidableEq δ] in
/-- The link of `i` does not matter to a loop that does not read it. -/
theorem cursor_update_next (s : State ι δ) {i : ι} (v : Option ι) (w : ι → WaitPc ι)
    (h : ∀ d, s.done d ≠ .advance i) (d : δ) :
    cursor { s with next := Function.update s.next i v, wait := w } d = cursor s d := by
  unfold cursor
  dsimp only
  cases hd : s.done d with
  | advance a =>
    have ha : a ≠ i := fun hai => h d (hai ▸ hd)
    exact Function.update_of_ne ha _ _
  | out => rfl
  | exchange => rfl
  | resume a => rfl

omit [DecidableEq ι] [DecidableEq δ] in
theorem cursor_loopPc {p : Option ι} (h : s.done d = loopPc p) : cursor s d = p := by
  cases p <;> simp [cursor, h, loopPc]

omit [DecidableEq ι] in
/-- The other loops stay where they are. -/
theorem cursor_of_ne {e : δ} {head : Option ι} {wait : ι → WaitPc ι} (pc : DonePc ι)
    (he : e ≠ d) :
    cursor ⟨c, head, s.next, wait, Function.update s.done d pc, o⟩ e = cursor s e := by
  simp [cursor, he]

section

omit [DecidableEq δ]

/-- A coroutine that moves between two places of `await_suspend` neither
becomes suspended nor stops being so. -/
theorem suspended_update_iff (s : State ι δ) {i : ι} {w : WaitPc ι}
    (hold : s.wait i ≠ .suspended) (hnew : w ≠ .suspended) (j : ι) :
    Function.update s.wait i w j = .suspended ↔ s.wait j = .suspended := by
  by_cases hj : j = i
  · subst hj
    rw [Function.update_self]
    exact iff_of_false hnew hold
  · rw [Function.update_of_ne hj]

/-- A step of `await_suspend` that neither pushes nor suspends, and a store to
the storage of an awaiter.  The awaiter is not one whose link a loop is about
to read. -/
theorem Linked.move (h : Linked s stack captured) {w : WaitPc ι} {v : Option ι}
    (hadv : ∀ d, s.done d ≠ .advance i) (hold : s.wait i ≠ .suspended)
    (hnew : w ≠ .suspended) (hcas : ∀ p, w = .casHead p → v = p) :
    Linked { s with
      next := Function.update s.next i v
      wait := Function.update s.wait i w } stack captured where
  cas_next j p hj := by
    by_cases hji : j = i
    · subst hji
      simp only [Function.update_self] at hj ⊢
      exact hcas p hj
    · simp only [Function.update_of_ne hji] at hj ⊢
      exact h.cas_next j p hj
  advance_out d a ha := by
    have hai : a ≠ i := fun hai => hadv d (hai ▸ ha)
    simp only [Function.update_of_ne hai]
    exact h.advance_out d a ha
  lists := by
    refine lists_iff.mpr ((lists_iff.mp h.lists).frame ?_ ?_ ?_)
    · exact cursor_update_next s v _ hadv
    · intro j hj
      have hji : j ≠ i := fun hji => hold (hji ▸ hj)
      exact Function.update_of_ne hji _ _
    · exact suspended_update_iff s hold hnew

omit [DecidableEq ι] in
/-- No loop is about to read the link of a coroutine inside of a call. -/
theorem Linked.not_advance (h : Linked s stack captured) (hi : s.wait i ≠ .out) (d : δ) :
    s.done d ≠ .advance i :=
  fun hd => hi (h.advance_out d i hd)

/-- A step that leaves the link alone. -/
theorem Linked.moveAt (h : Linked s stack captured) {w : WaitPc ι} (hout : s.wait i ≠ .out)
    (hold : s.wait i ≠ .suspended) (hnew : w ≠ .suspended) (hcas : ∀ p, w ≠ .casHead p) :
    Linked { s with wait := Function.update s.wait i w } stack captured := by
  have hmove := h.move (v := s.next i) (h.not_advance hout) hold hnew
    fun p hp => absurd hp (hcas p)
  rwa [Function.update_eq_self] at hmove

/-- The push of an awaiter whose link holds the current head. -/
theorem Linked.push (h : Linked s stack captured) (hi : s.wait i = .casHead s.head) :
    Linked { s with
      head := some i
      wait := Function.update s.wait i .suspended } (i :: stack) captured where
  cas_next j p hj := h.cas_next j p (of_update_eq hj (by simp))
  advance_out d a ha := by
    have hai : a ≠ i := fun hai => h.not_advance (by simp [hi]) d (hai ▸ ha)
    simp only [Function.update_of_ne hai]
    exact h.advance_out d a ha
  lists := by
    refine lists_iff.mpr ((lists_iff.mp h.lists).push ?_ ?_ ?_)
    · simp [hi]
    · exact h.cas_next i _ hi
    · intro j
      by_cases hji : j = i
      · simp [hji]
      · simp [hji]

end

section

omit [DecidableEq ι]

/-- A caller of `done` moves on, and its cursor stays. -/
theorem Linked.turn (h : Linked s stack captured) {pc : DonePc ι} (hadv : ∀ a, pc ≠ .advance a)
    (hcur : cursor ⟨c, s.head, s.next, s.wait, Function.update s.done d pc, o⟩ d = cursor s d) :
    Linked ⟨c, s.head, s.next, s.wait, Function.update s.done d pc, o⟩ stack captured where
  cas_next := h.cas_next
  advance_out e a he := h.advance_out e a (of_update_eq he (hadv a))
  lists := by
    refine lists_iff.mpr ((lists_iff.mp h.lists).frame ?_ ?_ ?_)
    · intro e
      by_cases he : e = d
      · subst he
        exact hcur
      · exact cursor_of_ne pc he
    · exact fun _ _ => rfl
    · exact fun _ => Iff.rfl

theorem loopPc_ne_advance (p : Option ι) (a : ι) : loopPc p ≠ .advance a := by
  cases p <;> simp [loopPc]

/-- The stack becomes the captured list of `d`. -/
theorem Linked.exchange (h : Linked s stack captured) (hd : s.done d = .exchange) :
    Linked { s with
      head := none
      done := Function.update s.done d (loopPc s.head) } []
      (Function.update captured d stack) where
  cas_next := h.cas_next
  advance_out e a he := h.advance_out e a (of_update_eq he (loopPc_ne_advance _ a))
  lists := by
    refine lists_iff.mpr ((lists_iff.mp h.lists).drain ?_ ?_ ?_)
    · simp [cursor, hd]
    · exact cursor_loopPc (Function.update_self ..)
    · intro e he
      exact cursor_of_ne _ he

end

/-- The loop resumes the first awaiter of its list. -/
theorem Linked.resume (h : Linked s stack captured) (hd : s.done d = .resume a) :
    Linked { s with
      wait := Function.update s.wait a .out
      done := Function.update s.done d (.advance a) } stack
      (Function.update captured d (captured d).tail) where
  cas_next j p hj := h.cas_next j p (of_update_eq hj (by simp))
  advance_out e b he := by
    by_cases hba : b = a
    · subst hba
      simp
    · simp only [Function.update_of_ne hba]
      refine h.advance_out e b (of_update_eq he ?_)
      simpa using fun hab => hba hab.symm
  lists := by
    refine lists_iff.mpr ((lists_iff.mp h.lists).take (a := a) (d := d) ?_ ?_ ?_ ?_)
    · simp [cursor, hd]
    · simp [cursor]
    · intro e he
      exact cursor_of_ne _ he
    · intro j
      by_cases hja : j = a
      · simp [hja]
      · simp [hja]

omit [DecidableEq ι] [DecidableEq δ] in
theorem Linked.init (h : Init s) : Linked s [] fun _ => [] where
  cas_next i p hi := by simp [h.wait_out i] at hi
  advance_out d a hd := by simp [h.done_out d] at hd
  lists := by
    apply lists_iff.mpr
    rw [h.head_none]
    refine .init ?_ ?_
    · intro d
      simp [cursor, h.done_out d]
    · intro i
      simp [h.wait_out i]

/-- Every step that leaves the links of the loops alone keeps the lists.  What
a loop has captured after the step it had captured before, or the step is the
exchange that captures the stack. -/
theorem Linked.step {l : Label ι δ} (h : Linked s stack captured) (hg : KeepsLinks s l)
    (hs : step s l = some s') : ∃ stack' captured', Linked s' stack' captured' ∧
      ∀ d i, i ∈ captured' d → i ∈ captured d ∨ l = .exchange d ∧ i ∈ stack := by
  cases step_cases hs with
  | wait hi => exact ⟨_, _, h.move hg (by simp [hi]) (by simp) (by simp), fun _ _ => .inl⟩
  | loadCount hi =>
    refine ⟨_, _, h.moveAt (by simp [hi]) (by simp [hi]) ?_ ?_, fun _ _ => .inl⟩
    · split_ifs <;> simp
    · intro p
      split_ifs <;> simp
  | loadHead hi =>
    exact ⟨_, _, h.move (h.not_advance (by simp [hi])) (by simp [hi]) (by simp) (by simp),
      fun _ _ => .inl⟩
  | push hi => exact ⟨_, _, h.push hi, fun _ _ => .inl⟩
  | casFails hi =>
    exact ⟨_, _, h.moveAt (by simp [hi]) (by simp [hi]) (by simp) (by simp), fun _ _ => .inl⟩
  | add =>
    have hdrain := lists_iff.mp h.lists
    exact ⟨_, _, ⟨h.cas_next, h.advance_out, lists_iff.mpr hdrain⟩, fun _ _ => .inl⟩
  | done hd =>
    refine ⟨_, _, h.turn ?_ ?_, fun _ _ => .inl⟩
    · intro a
      split_ifs <;> simp
    · simp only [cursor, Function.update_self, hd]
      split_ifs <;> rfl
  | @exchange d hd =>
    refine ⟨_, _, h.exchange hd, ?_⟩
    intro e i hi
    by_cases he : e = d
    · subst he
      rw [Function.update_self] at hi
      exact .inr ⟨rfl, hi⟩
    · rw [Function.update_of_ne he] at hi
      exact .inl hi
  | @resume d a hd =>
    refine ⟨_, _, h.resume hd, ?_⟩
    intro e i hi
    by_cases he : e = d
    · subst he
      rw [Function.update_self] at hi
      exact .inl (List.mem_of_mem_tail hi)
    · rw [Function.update_of_ne he] at hi
      exact .inl hi
  | advance hd =>
    refine ⟨_, _, h.turn (loopPc_ne_advance _) ?_, fun _ _ => .inl⟩
    rw [cursor_loopPc (Function.update_self ..)]
    simp [cursor, hd]
  | @reuse i v hi =>
    have hmove := h.move (v := v) (w := .out) hg (by simp [hi]) (by simp) (by simp)
    rw [← hi, Function.update_eq_self] at hmove
    exact ⟨_, _, hmove, fun _ _ => .inl⟩

end Links

/-! ### The count -/

/-- The part of the invariant that is about the count. -/
structure Counted (s : State ι δ) : Prop where
  count_eq : s.count = s.owed
  owed_lt : s.owed < 2 ^ 31
  drain_ahead : (s.head ≠ none ∨ ∃ i, InWindow s i) →
    s.owed ≠ 0 ∨ ∃ d, s.done d = .exchange

section Count

variable {s s' : State ι δ} {i a : ι} {d : δ}

section

omit [DecidableEq δ]

/-- A step of `await_suspend` that does not push. -/
theorem Counted.move (h : Counted s) (next : ι → Option ι) {w : WaitPc ι}
    (hwin : w = .loadHead ∨ w = .casHead none → s.owed ≠ 0 ∨ ∃ d, s.done d = .exchange) :
    Counted { s with next := next, wait := Function.update s.wait i w } where
  count_eq := h.count_eq
  owed_lt := h.owed_lt
  drain_ahead hd := by
    rcases hd with hd | ⟨j, hj⟩
    · exact h.drain_ahead (.inl hd)
    · unfold InWindow at hj
      by_cases hji : j = i
      · subst hji
        simp only [Function.update_self] at hj
        exact hwin hj
      · simp only [Function.update_of_ne hji] at hj
        exact h.drain_ahead (.inr ⟨j, hj⟩)

theorem Counted.loadCount (h : Counted s) :
    Counted { s with
      wait := Function.update s.wait i (if s.count = 0 then .out else .loadHead) } := by
  apply h.move s.next
  intro hw
  have hc := h.count_eq
  split at hw
  · rcases hw with hw | hw <;> cases hw
  · exact .inl (by omega)

theorem Counted.loadHead (h : Counted s) (hi : s.wait i = .loadHead) :
    Counted { s with
      next := Function.update s.next i s.head
      wait := Function.update s.wait i (.casHead s.head) } :=
  h.move _ fun _ => h.drain_ahead (.inr ⟨i, .inl hi⟩)

/-- A push onto a list that is not empty adds nothing; a push onto an empty
one comes from the window. -/
theorem Counted.push (h : Counted s) (hi : s.wait i = .casHead s.head) :
    Counted { s with
      head := some i
      wait := Function.update s.wait i .suspended } where
  count_eq := h.count_eq
  owed_lt := h.owed_lt
  drain_ahead _ := by
    by_cases hhead : s.head = none
    · exact h.drain_ahead (.inr ⟨i, .inr (hhead ▸ hi)⟩)
    · exact h.drain_ahead (.inl hhead)

end

omit [DecidableEq ι] [DecidableEq δ] in
theorem Counted.add (h : Counted s) {n : Nat} (hn : s.count + n < 2 ^ 31) :
    Counted { s with count := wrap32 (s.count + n), owed := s.owed + n } where
  count_eq := by
    have hc := h.count_eq
    show wrap32 (s.count + n) = ((s.owed + n : Nat) : Int)
    rw [wrap32_eq (by omega) hn]
    omega
  owed_lt := by
    have hc := h.count_eq
    show s.owed + n < 2 ^ 31
    omega
  drain_ahead hd := by
    rcases h.drain_ahead hd with ho | he
    · exact .inl (show s.owed + n ≠ 0 by omega)
    · exact .inr he

section

omit [DecidableEq ι]

/-- The `fetch_sub` of `done`.  The caller that brings the count to zero is
the one that goes on to drain the list. -/
theorem Counted.fetchSub (h : Counted s) (howed : 0 < s.owed) :
    Counted { s with
      count := wrap32 (s.count - 1)
      owed := s.owed - 1
      done := Function.update s.done d (if s.count = 1 then .exchange else .out) } where
  count_eq := by
    have hc := h.count_eq
    have hlt := h.owed_lt
    show wrap32 (s.count - 1) = ((s.owed - 1 : Nat) : Int)
    rw [wrap32_eq (by omega) (by omega)]
    omega
  owed_lt := by
    have hlt := h.owed_lt
    show s.owed - 1 < 2 ^ 31
    omega
  drain_ahead hdr := by
    have hc := h.count_eq
    by_cases hone : s.count = 1
    · exact .inr ⟨d, by simp [hone]⟩
    · exact .inl (show s.owed - 1 ≠ 0 by omega)

/-- The drain.  Nobody is in the window, so nobody is left to push itself
behind it. -/
theorem Counted.exchange (h : Counted s) (hwin : ∀ i, ¬ InWindow s i) :
    Counted { s with
      head := none
      done := Function.update s.done d (loopPc s.head) } where
  count_eq := h.count_eq
  owed_lt := h.owed_lt
  drain_ahead hdr := by
    rcases hdr with hdr | ⟨i, hi⟩
    · exact absurd rfl hdr
    · exact absurd hi (hwin i)

/-- A `done` that is not about to drain may move on without touching the
promise that a drain is ahead. -/
theorem exchange_update (hd : s.done d ≠ .exchange) (pc : DonePc ι)
    (h : ∃ e, s.done e = .exchange) : ∃ e, Function.update s.done d pc e = .exchange := by
  obtain ⟨e, he⟩ := h
  have hed : e ≠ d := fun hed => hd (hed ▸ he)
  exact ⟨e, by rw [Function.update_of_ne hed, he]⟩

theorem Counted.turn (h : Counted s) (hd : s.done d ≠ .exchange) (pc : DonePc ι) :
    Counted { s with done := Function.update s.done d pc } where
  count_eq := h.count_eq
  owed_lt := h.owed_lt
  drain_ahead hdr := (h.drain_ahead hdr).imp_right (exchange_update hd pc)

end

/-- Every step that meets the condition keeps the count. -/
theorem Counted.step {l : Label ι δ} (h : Counted s) (hg : NoRace s l)
    (hs : step s l = some s') : Counted s' := by
  cases step_cases hs with
  | wait => exact h.move _ (by simp)
  | loadCount => exact h.loadCount
  | loadHead hi => exact h.loadHead hi
  | push hi => exact h.push hi
  | casFails => exact h.move s.next (by simp)
  | add => exact h.add hg
  | done _ howed => exact h.fetchSub howed
  | exchange => exact h.exchange hg
  | @resume d a hd =>
    exact (h.move (i := a) s.next (w := .out) (by simp)).turn (by simp [hd]) _
  | advance hd => exact h.turn (by simp [hd]) _
  | @reuse i v hi =>
    have hmove := h.move (i := i) (Function.update s.next i v) (w := .out) (by simp)
    rwa [← hi, Function.update_eq_self] at hmove

end Count

/-! ### Every guarded run -/

section

omit [DecidableEq ι] [DecidableEq δ]

theorem inv_iff {s : State ι δ} :
    Inv s ↔ (∃ stack captured, Linked s stack captured) ∧ Counted s := by
  constructor
  · intro h
    obtain ⟨stack, captured, hl⟩ := h.lists
    exact ⟨⟨stack, captured, h.cas_next, h.advance_out, hl⟩, h.count_eq, h.owed_lt, h.drain_ahead⟩
  · rintro ⟨⟨stack, captured, hl⟩, hc⟩
    exact ⟨hc.count_eq, hc.owed_lt, hl.cas_next, hl.advance_out, hc.drain_ahead, stack, captured,
      hl.lists⟩

theorem NoRace.keepsLinks {s : State ι δ} {l : Label ι δ} (h : NoRace s l) : KeepsLinks s l := by
  cases l with
  | wait i => exact h
  | reuse i v => exact h
  | _ => trivial

theorem Inv.init {s : State ι δ} (h : Init s) : Inv s := by
  refine inv_iff.mpr ⟨⟨_, _, .init h⟩, h.count_eq, h.owed_lt, ?_⟩
  rintro (hd | ⟨i, hi⟩)
  · exact absurd h.head_none hd
  · unfold InWindow at hi
    simp [h.wait_out i] at hi

end

/-- Every step that meets the condition keeps the invariant. -/
theorem Inv.step {s s' : State ι δ} {l : Label ι δ} (h : Inv s) (hg : NoRace s l)
    (hs : step s l = some s') : Inv s' := by
  obtain ⟨⟨stack, captured, hl⟩, hc⟩ := inv_iff.mp h
  obtain ⟨stack', captured', hl', _⟩ := hl.step hg.keepsLinks hs
  exact inv_iff.mpr ⟨⟨stack', captured', hl'⟩, hc.step hg hs⟩

theorem inv_of_reachable {s : State ι δ} (h : (machine ι δ).ReachableUnder NoRace s) : Inv s :=
  h.invariant (fun _ h0 => Inv.init h0) fun _ _ _ _ hi hg hs => hi.step hg hs

/-- In a run without the race, a state with the count at zero and no call in
progress has an empty waiter list, and every waiter that suspended has been
submitted for resumption. -/
theorem waiters_drained {s : State ι δ} (h : (machine ι δ).ReachableUnder NoRace s)
    (hq : Quiescent s) (hcount : s.count = 0) :
    s.head = none ∧ ∀ i, s.wait i ≠ .suspended := by
  have hinv := inv_of_reachable h
  have hhead : s.head = none := by
    by_contra hne
    rcases hinv.drain_ahead (.inl hne) with ho | ⟨d, hd⟩
    · have hc := hinv.count_eq
      omega
    · rw [hq.2 d] at hd
      cases hd
  refine ⟨hhead, fun i hi => ?_⟩
  obtain ⟨stack, captured, hl⟩ := hinv.lists
  rcases (hl.suspended_iff i).mp hi with hmem | ⟨d, hmem⟩
  · have hstack := hl.stack_chain
    rw [hhead, Chain.none_iff] at hstack
    simp [hstack] at hmem
  · have hcap := hl.captured_chain d
    simp only [cursor, hq.2 d, Chain.none_iff] at hcap
    simp [hcap] at hmem

instance (s : State ι δ) (i : ι) : Decidable (InWindow s i) :=
  inferInstanceAs (Decidable (_ ∨ _))

instance [Fintype ι] [Fintype δ] (s : State ι δ) : DecidablePred (NoRace s)
  | .exchange _ => inferInstanceAs (Decidable (∀ i, ¬ InWindow s i))
  | .add n => inferInstanceAs (Decidable (s.count + n < 2 ^ 31))
  | .wait i => inferInstanceAs (Decidable (∀ d, s.done d ≠ .advance i))
  | .reuse i _ => inferInstanceAs (Decidable (∀ d, s.done d ≠ .advance i))
  | .loadCount _ | .loadHead _ | .casHead _ _ | .done _ | .resume _ | .advance _ =>
    inferInstanceAs (Decidable True)

/-- A waiter parks, and the only `done` drains the list and resumes it. -/
theorem waiters_drained_one :
    ∃ s : State Unit Unit, (machine Unit Unit).ReachableUnder NoRace s ∧ Quiescent s ∧
      s.count = 0 ∧ s.head = none ∧ ∀ i, s.wait i ≠ .suspended := by
  have hrun : ((machine Unit Unit).runUnder NoRace (start 1)
      [.wait (), .loadCount (), .loadHead (), .casHead () false, .done (), .exchange (),
        .resume (), .advance ()]).map (fun s =>
      decide (s.wait () = .out ∧ s.done () = .out ∧ s.count = 0)) = some true := by decide
  obtain ⟨s, hs, htest⟩ := Machine.reachableUnder_of_run (start_init (by decide)) hrun
  obtain ⟨hwait, hdone, hcount⟩ := of_decide_eq_true htest
  have hq : Quiescent s := ⟨fun _ => .inl hwait, fun _ => hdone⟩
  exact ⟨s, hs, hq, hcount, waiters_drained hs hq hcount⟩

end SheepCoro.WaitGroup
