import SheepCoro.Lib.History
import SheepCoro.Lib.Chain
import SheepCoro.Lib.Update

/-!
# Events

`src/comp/event.cpp` as a machine with one step for each atomic operation.
Any number of coroutines (`ι`) await the event, any number of times, and any
number of callers (`δ`) call `set`.  As in the wait group, an awaiter lives in
the frame of the coroutine that waits, so the two have the same name.

`m_state` is one word: the address of the event when it is set, and the head
of the list of awaiters when it is not.
-/

namespace SheepCoro.Event

open Lib

/-- `m_state`. -/
inductive Word (ι : Type)
  /-- The address of the event. -/
  | set
  | list (head : Option ι)
deriving DecidableEq

/-- Where a coroutine is in `co_await ev.wait()`. -/
inductive WaitPc (ι : Type)
  | out
  /-- In `await_ready`, about to load `m_state`. -/
  | ready
  /-- In `register_awaiter`, about to load `m_state`. -/
  | load
  /-- `m_next` holds the loaded head; about to compare and exchange. -/
  | cas (old : Option ι)
  /-- `await_suspend` returned `true`. -/
  | suspended
deriving DecidableEq

/-- Where a caller is in `set_state`. -/
inductive SetPc (ι : Type)
  | out
  /-- About to exchange `m_state`. -/
  | exchange
  /-- In `resume_all_awaiter`, about to submit the coroutine. -/
  | submit (waiter : ι)
  /-- About to read `cur->m_next`. -/
  | advance (waiter : ι)
deriving DecidableEq

structure State (ι δ : Type) where
  word : Word ι
  /-- `m_next` of every awaiter. -/
  next : ι → Option ι
  wait : ι → WaitPc ι
  set : δ → SetPc ι

inductive Label (ι δ : Type)
  | wait (i : ι)
  | isSet (i : ι)
  | load (i : ι)
  | cas (i : ι) (spurious : Bool)
  | set (d : δ)
  | exchange (d : δ)
  | submit (d : δ)
  | advance (d : δ)
  /-- The storage of an awaiter outside of a call holds something else. -/
  | reuse (i : ι) (v : Option ι)
deriving DecidableEq

/-- The loop condition `waiter != nullptr`. -/
def loopPc {ι : Type} : Option ι → SetPc ι
  | none => .out
  | some a => .submit a

/-- What `set_state` does with the word that it took. -/
def takenPc {ι : Type} : Word ι → SetPc ι
  | .set => .out
  | .list head => loopPc head

variable {ι δ : Type} [DecidableEq ι] [DecidableEq δ]

/-- One atomic step.  `submit_task` of a coroutine that is not suspended has
no defined result. -/
def step (s : State ι δ) : Label ι δ → Option (State ι δ)
  | .wait i =>
    if s.wait i = .out then
      some { s with
        next := Function.update s.next i none
        wait := Function.update s.wait i .ready }
    else none
  | .isSet i =>
    if s.wait i = .ready then
      some { s with
        wait := Function.update s.wait i (if s.word = .set then .out else .load) }
    else none
  | .load i =>
    if s.wait i = .load then
      match s.word with
      | .set =>
        some { s with
          next := Function.update s.next i none
          wait := Function.update s.wait i .out }
      | .list head =>
        some { s with
          next := Function.update s.next i head
          wait := Function.update s.wait i (.cas head) }
    else none
  | .cas i spurious =>
    match s.wait i with
    | .cas old =>
      if s.word = .list old ∧ spurious = false then
        some { s with
          word := .list (some i)
          wait := Function.update s.wait i .suspended }
      else some { s with wait := Function.update s.wait i .load }
    | _ => none
  | .set d =>
    if s.set d = .out then
      some { s with set := Function.update s.set d .exchange }
    else none
  | .exchange d =>
    if s.set d = .exchange then
      some { s with
        word := .set
        set := Function.update s.set d (takenPc s.word) }
    else none
  | .submit d =>
    match s.set d with
    | .submit a =>
      if s.wait a = .suspended then
        some { s with
          wait := Function.update s.wait a .out
          set := Function.update s.set d (.advance a) }
      else none
    | _ => none
  | .advance d =>
    match s.set d with
    | .advance a => some { s with set := Function.update s.set d (loopPc (s.next a)) }
    | _ => none
  | .reuse i v =>
    if s.wait i = .out then
      some { s with next := Function.update s.next i v }
    else none

/-- `event_base(initial_set)`. -/
structure Init (initialSet : Bool) (s : State ι δ) : Prop where
  word_eq : s.word = if initialSet then .set else .list none
  wait_out : ∀ i, s.wait i = .out
  set_out : ∀ d, s.set d = .out

variable (ι δ) in
def machine (initialSet : Bool) : Machine (State ι δ) (Label ι δ) where
  init := Init initialSet
  step := step

/-- The step lets `i` go on behind its `co_await`. -/
def Proceeds (s : State ι δ) : Label ι δ → ι → Prop
  | .isSet j, i => j = i ∧ s.word = .set
  | .load j, i => j = i ∧ s.word = .set
  | .submit d, i => s.set d = .submit i
  | _, _ => False

/-- The awaiter that the step links: its compare and exchange succeeds. -/
def linked (s : State ι δ) : Label ι δ → List ι
  | .cas i spurious =>
    match s.wait i with
    | .cas old => if s.word = .list old ∧ spurious = false then [i] else []
    | _ => []
  | _ => []

/-- The `set` that the step is the exchange of, with the head of the list that
it takes, when it changes the state. -/
def captured (s : State ι δ) : Label ι δ → List (δ × Option ι)
  | .exchange d =>
    match s.word with
    | .set => []
    | .list head => [(d, head)]
  | _ => []

/-- The coroutine that the step submits, with the `set` that does. -/
def submitted (s : State ι δ) : Label ι δ → List (δ × ι)
  | .submit d =>
    match s.set d with
    | .submit a => [(d, a)]
    | _ => []
  | _ => []

/-- The storage of an awaiter is left alone until the loop that submitted its
coroutine has read its link. -/
def KeepsLinks (s : State ι δ) : Label ι δ → Prop
  | .wait i | .reuse i _ => ∀ d, s.set d ≠ .advance i
  | _ => True

/-- What a step does.  A coroutine moves that is linked neither before nor
after the step, an awaiter is linked, a `set` begins or reads the next
awaiter, a `set` takes the word, or it submits a coroutine. -/
inductive StepCase (s s' : State ι δ) (l : Label ι δ) : Prop
  | move (i : ι) (pc : WaitPc ι) (v : Option ι)
      (hold : s.wait i ≠ .suspended) (hnew : pc ≠ .suspended)
      (hcas : ∀ old, pc = .cas old → v = old)
      (hfree : KeepsLinks s l → s.wait i = .out → ∀ d, s.set d ≠ .advance i)
      (hstate : s' = { s with
        next := Function.update s.next i v
        wait := Function.update s.wait i pc })
      (hlinked : linked s l = []) (hcaptured : captured s l = [])
      (hsubmitted : submitted s l = [])
  | link (i : ι) (old : Option ι) (hword : s.word = .list old) (hi : s.wait i = .cas old)
      (hstate : s' = { s with
        word := .list (some i)
        wait := Function.update s.wait i .suspended })
      (hlinked : linked s l = [i]) (hcaptured : captured s l = [])
      (hsubmitted : submitted s l = [])
  | turn (d : δ) (pc : SetPc ι)
      (hpc : s.set d = .out ∧ pc = .exchange ∨
        ∃ a, s.set d = .advance a ∧ pc = loopPc (s.next a))
      (hstate : s' = { s with set := Function.update s.set d pc })
      (hlinked : linked s l = []) (hcaptured : captured s l = [])
      (hsubmitted : submitted s l = [])
  | exchange (d : δ) (hlabel : l = .exchange d) (hd : s.set d = .exchange)
      (hstate : s' = { s with
        word := .set
        set := Function.update s.set d (takenPc s.word) })
      (hlinked : linked s l = [])
  | submit (d : δ) (a : ι) (hd : s.set d = .submit a) (ha : s.wait a = .suspended)
      (hstate : s' = { s with
        wait := Function.update s.wait a .out
        set := Function.update s.set d (.advance a) })
      (hlinked : linked s l = []) (hcaptured : captured s l = [])
      (hsubmitted : submitted s l = [(d, a)])

theorem step_cases {s s' : State ι δ} {l : Label ι δ} (hs : step s l = some s') :
    StepCase s s' l := by
  cases l with
  | wait i =>
    obtain ⟨hi, hs⟩ := Option.ite_none_right_eq_some.mp hs
    cases hs
    exact .move i .ready none (by simp [hi]) (by simp) (by simp) (fun h _ => h) rfl rfl rfl rfl
  | isSet i =>
    obtain ⟨hi, hs⟩ := Option.ite_none_right_eq_some.mp hs
    cases hs
    refine .move i (if s.word = .set then .out else .load) (s.next i) (by simp [hi]) ?_ ?_
      (by simp [hi]) ?_ rfl rfl rfl
    · split_ifs <;> simp
    · intro old
      split_ifs <;> simp
    · rw [Function.update_eq_self]
  | load i =>
    obtain ⟨hi, hs⟩ := Option.ite_none_right_eq_some.mp hs
    cases hw : s.word with
    | set =>
      rw [hw] at hs
      cases hs
      exact .move i .out none (by simp [hi]) (by simp) (by simp) (by simp [hi]) (by rw [hw])
        rfl rfl rfl
    | list head =>
      rw [hw] at hs
      cases hs
      exact .move i (.cas head) head (by simp [hi]) (by simp) (by simp) (by simp [hi])
        (by rw [hw]) rfl rfl rfl
  | cas i spurious =>
    simp only [step] at hs
    split at hs
    · rename_i old hi
      split at hs
      · rename_i hold
        cases hs
        exact .link i old hold.1 hi rfl (by simp [linked, hi, hold]) rfl rfl
      · rename_i hold
        cases hs
        refine .move i .load (s.next i) (by simp [hi]) (by simp) (by simp) (by simp [hi]) ?_ ?_
          rfl rfl
        · rw [Function.update_eq_self]
        · simp only [linked, hi, if_neg hold]
    · cases hs
  | set d =>
    obtain ⟨hd, hs⟩ := Option.ite_none_right_eq_some.mp hs
    cases hs
    exact .turn d .exchange (.inl ⟨hd, rfl⟩) rfl rfl rfl rfl
  | exchange d =>
    obtain ⟨hd, hs⟩ := Option.ite_none_right_eq_some.mp hs
    cases hs
    exact .exchange d rfl hd rfl rfl
  | submit d =>
    simp only [step] at hs
    split at hs
    · rename_i a hd
      obtain ⟨ha, hs⟩ := Option.ite_none_right_eq_some.mp hs
      cases hs
      exact .submit d a hd ha rfl rfl rfl (by simp only [submitted, hd])
    · cases hs
  | advance d =>
    simp only [step] at hs
    split at hs
    · rename_i a hd
      cases hs
      exact .turn d _ (.inr ⟨a, hd, rfl⟩) rfl rfl rfl rfl
    · cases hs
  | reuse i v =>
    obtain ⟨hi, hs⟩ := Option.ite_none_right_eq_some.mp hs
    cases hs
    refine .move i .out v (by simp [hi]) (by simp) (by simp) (fun h _ => h) ?_ rfl rfl rfl
    rw [← hi, Function.update_eq_self]

/-- An event that is set stays set, and nobody is linked to it or taken from
it again. -/
theorem step_set {s s' : State ι δ} {l : Label ι δ} (hword : s.word = .set)
    (hs : step s l = some s') : s'.word = .set ∧ linked s l = [] ∧ captured s l = [] := by
  cases step_cases hs with
  | move i pc v _ _ _ _ hstate hlinked hcaptured =>
    subst hstate
    exact ⟨hword, hlinked, hcaptured⟩
  | link i old hlist =>
    rw [hword] at hlist
    cases hlist
  | turn d pc _ hstate hlinked hcaptured =>
    subst hstate
    exact ⟨hword, hlinked, hcaptured⟩
  | exchange d hlabel _ hstate hlinked =>
    subst hstate hlabel
    exact ⟨rfl, hlinked, by simp [captured, hword]⟩
  | submit d a _ _ hstate hlinked hcaptured =>
    subst hstate
    exact ⟨hword, hlinked, hcaptured⟩

/-- The exchange that sets the event. -/
theorem step_sets {s s' : State ι δ} {l : Label ι δ} {head : Option ι}
    (hword : s.word = .list head) (hs : step s l = some s') (hword' : s'.word = .set) :
    ∃ d, l = .exchange d ∧ s.set d = .exchange := by
  cases step_cases hs with
  | exchange d hlabel hd => exact ⟨d, hlabel, hd⟩
  | link i old _ _ hstate =>
    subst hstate
    cases hword'
  | move i pc v _ _ _ _ hstate =>
    subst hstate
    cases hword.symm.trans hword'
  | turn d pc _ hstate =>
    subst hstate
    cases hword.symm.trans hword'
  | submit d a _ _ hstate =>
    subst hstate
    cases hword.symm.trans hword'

/-- A caller that is about to exchange was so before, or has just called. -/
theorem step_exchange {s s' : State ι δ} {l : Label ι δ} {d : δ} (hs : step s l = some s')
    (hd : s'.set d = .exchange) (hl : l ≠ .set d) : s.set d = .exchange := by
  cases l with
  | set e =>
    obtain ⟨_, hs⟩ := Option.ite_none_right_eq_some.mp hs
    cases hs
    have hde : d ≠ e := by
      rintro rfl
      exact hl rfl
    exact (Function.update_of_ne hde ..).symm.trans hd
  | exchange e =>
    obtain ⟨_, hs⟩ := Option.ite_none_right_eq_some.mp hs
    cases hs
    apply of_update_eq hd
    cases s.word with
    | set => simp [takenPc]
    | list head => cases head <;> simp [takenPc, loopPc]
  | submit e =>
    simp only [step] at hs
    split at hs
    · obtain ⟨_, hs⟩ := Option.ite_none_right_eq_some.mp hs
      cases hs
      exact of_update_eq hd (by simp)
    · cases hs
  | advance e =>
    simp only [step] at hs
    split at hs
    · rename_i a _
      cases hs
      apply of_update_eq hd
      cases s.next a <;> simp [loopPc]
    · cases hs
  | load i =>
    obtain ⟨_, hs⟩ := Option.ite_none_right_eq_some.mp hs
    split at hs
    · cases hs
      exact hd
    · cases hs
      exact hd
  | cas i spurious =>
    simp only [step] at hs
    split at hs
    · split at hs
      · cases hs
        exact hd
      · cases hs
        exact hd
    · cases hs
  | _ =>
    obtain ⟨_, hs⟩ := Option.ite_none_right_eq_some.mp hs
    cases hs
    exact hd

/-- No `set` has a list to work on. -/
def Calls (s : State ι δ) : Prop :=
  ∀ d, s.set d = .out ∨ s.set d = .exchange

omit [DecidableEq ι] [DecidableEq δ] in
theorem not_loop {s : State ι δ} {d : δ} {a : ι} (h : Calls s) :
    s.set d ≠ .submit a ∧ s.set d ≠ .advance a := by
  rcases h d with hd | hd <;> simp [hd]

/-- It stays so until the event is set. -/
theorem step_calls {s s' : State ι δ} {l : Label ι δ} {head : Option ι} (h : Calls s)
    (hs : step s l = some s') (hword : s'.word = .list head) : Calls s' := by
  cases step_cases hs with
  | move i pc v _ _ _ _ hstate =>
    subst hstate
    exact h
  | link i old _ _ hstate =>
    subst hstate
    exact h
  | turn d pc hpc hstate =>
    subst hstate
    rcases hpc with ⟨_, rfl⟩ | ⟨a, ha, _⟩
    · intro e
      by_cases he : e = d
      · exact .inr (update_eq_of (fun _ => rfl) fun hne => absurd he hne)
      · simpa [he] using h e
    · exact absurd ha (not_loop h).2
  | exchange d _ _ hstate =>
    subst hstate
    cases hword
  | submit d a hd => exact absurd hd (not_loop h).1

omit [DecidableEq ι] [DecidableEq δ] in
/-- Whoever goes on finds the event set. -/
theorem proceeds_set {s : State ι δ} {l : Label ι δ} {i : ι}
    (h : ∀ head, s.word = .list head → Calls s) (hp : Proceeds s l i) : s.word = .set := by
  cases hword : s.word with
  | set => rfl
  | list head =>
    cases l with
    | isSet j => exact absurd hp.2 (by simp [hword])
    | load j => exact absurd hp.2 (by simp [hword])
    | submit d => exact absurd hp (not_loop (h head hword)).1
    | _ => exact hp.elim

end SheepCoro.Event
