import SheepCoro.Lib.History
import SheepCoro.WaitGroup

/-!
# Rounds of a wait group

A wait group is used again: when its count has come to zero, `add` starts the
next round.  A coroutine that runs past `co_await wg.wait()` should have been
in that call at an instant at which the count was zero.

Nothing is assumed about the number of `done` calls (`freeMachine`).  `done`
brings the count to zero and takes the list in a second step.  A
waiter of the next round that is pushed between the two is resumed by the
first round, which is the run `returns_early`.  `wait_not_early` is about the
runs in which no `wait` begins there.
-/

namespace SheepCoro.WaitGroup

open Lib

variable {ι δ : Type} [DecidableEq ι] [DecidableEq δ]

/-- The step of a program that may call `done` more often than it has added
units. -/
def freeStep (s : State ι δ) : Label ι δ → Option (State ι δ)
  | .done d =>
    if s.done d = .out then
      some { s with
        count := wrap32 (s.count - 1)
        owed := s.owed - 1
        done := Function.update s.done d (if s.count = 1 then .exchange else .out) }
    else none
  | l => step s l

variable (ι δ) in
def freeMachine : Machine (State ι δ) (Label ι δ) where
  init := Init
  step := freeStep

/-- The step lets `i` run past its `co_await`: `await_suspend` returns
`false`, or the loop of a `done` submits the coroutine. -/
def Returns (s : State ι δ) : Label ι δ → ι → Prop
  | .loadCount j, i => j = i ∧ s.count = 0
  | .resume d, i => s.done d = .resume i
  | _, _ => False

/-- In the run from `s₀`, the count was zero at an instant of the call in
which `i` is. -/
def SawZero (s₀ : State ι δ) (as : List (Label ι δ)) (i : ι) : Prop :=
  ∃ pre post u, as = pre ++ post ∧ (freeMachine ι δ).run s₀ pre = some u ∧ u.count = 0 ∧
    u.wait i ≠ .out ∧ .wait i ∉ post

/-- The condition on a step.  No `wait` begins, with a count other than zero,
while a `done` has still to take the list, and the storage of an awaiter is
left alone until the loop that resumed it has read its link. -/
def InRound (s : State ι δ) : Label ι δ → Prop
  | .wait i => (s.count = 0 ∨ ∀ d, s.done d ≠ .exchange) ∧ ∀ d, s.done d ≠ .advance i
  | .reuse i _ => ∀ d, s.done d ≠ .advance i
  | _ => True

/-- Whoever is captured has seen the count at zero, and so has everybody who
is in a call when a `done` is about to capture. -/
structure Seen (s₀ : State ι δ) (as : List (Label ι δ)) (s : State ι δ) (stack : List ι)
    (captured : δ → List ι) : Prop where
  linked : Linked s stack captured
  captured_saw : ∀ d, ∀ i ∈ captured d, SawZero s₀ as i
  called_saw : ∀ d, s.done d = .exchange → ∀ i, s.wait i ≠ .out → SawZero s₀ as i

section Lemmas

variable {s₀ s s' : State ι δ} {as : List (Label ι δ)} {l : Label ι δ} {i : ι} {d : δ}
  {stack : List ι} {captured : δ → List ι}

omit [DecidableEq ι] [DecidableEq δ] in
theorem InRound.keepsLinks (h : InRound s l) : KeepsLinks s l := by
  cases l with
  | wait i => exact h.2
  | reuse i v => exact h
  | _ => trivial

/-- A step is one of the machine with units, or a `done`. -/
theorem freeStep_cases (hs : freeStep s l = some s') :
    step s l = some s' ∨ ∃ d, l = .done d ∧ s.done d = .out ∧ s' = { s with
      count := wrap32 (s.count - 1)
      owed := s.owed - 1
      done := Function.update s.done d (if s.count = 1 then .exchange else .out) } := by
  cases l with
  | done d =>
    obtain ⟨hd, hs⟩ := Option.ite_none_right_eq_some.mp hs
    exact .inr ⟨d, rfl, hd, (Option.some.inj hs).symm⟩
  | _ => exact .inl hs

theorem resume_enabled {a : ι} (hd : s.done d = .resume a) (ha : s.wait a = .suspended) :
    ∃ t, freeStep s (.resume d) = some t := by
  simp [freeStep, step, hd, ha]

theorem Linked.freeStep (h : Linked s stack captured) (hg : KeepsLinks s l)
    (hs : freeStep s l = some s') : ∃ stack' captured', Linked s' stack' captured' ∧
      ∀ d i, i ∈ captured' d → i ∈ captured d ∨ l = .exchange d ∧ i ∈ stack := by
  rcases freeStep_cases hs with hs | ⟨d, rfl, hd, rfl⟩
  · exact h.step hg hs
  · refine ⟨_, _, h.turn ?_ ?_, fun _ _ => .inl⟩
    · intro a
      split_ifs <;> simp
    · simp only [cursor, Function.update_self, hd]
      split_ifs <;> rfl

/-- The count is zero now. -/
theorem SawZero.now (hrun : (freeMachine ι δ).run s₀ as = some s) (hcount : s.count = 0)
    (hi : s.wait i ≠ .out) : SawZero s₀ as i :=
  ⟨as, [], s, by simp, hrun, hcount, hi, by simp⟩

/-- It has been zero before. -/
theorem SawZero.later (h : SawZero s₀ as i) (hl : l ≠ .wait i) : SawZero s₀ (as ++ [l]) i := by
  obtain ⟨pre, post, u, rfl, hu, hcount, hi, hpost⟩ := h
  refine ⟨pre, post ++ [l], u, by simp, hu, hcount, hi, ?_⟩
  rw [List.mem_append, List.mem_singleton]
  rintro (hmem | heq)
  · exact hpost hmem
  · exact hl heq.symm

/-- A coroutine comes into a call by `wait`, which leaves the count alone. -/
theorem step_called (hs : freeStep s l = some s') (hi : s'.wait i ≠ .out) :
    s.wait i ≠ .out ∨ l = .wait i ∧ s'.count = s.count := by
  -- The step is one of a coroutine that is in a call.
  have hcalled : ∀ {j w}, Function.update s.wait j w i ≠ .out → s.wait j ≠ .out →
      s.wait i ≠ .out := by
    intro j w hupdate hj
    by_cases hij : i = j
    · rwa [hij]
    · rwa [Function.update_of_ne hij] at hupdate
  rcases freeStep_cases hs with hs | ⟨d, rfl, hd, rfl⟩
  · cases step_cases hs with
    | @wait j =>
      by_cases hij : i = j
      · exact .inr ⟨by rw [hij], rfl⟩
      · exact .inl ((Function.update_of_ne hij ..).symm.trans_ne hi)
    | loadCount hj | loadHead hj | push hj | casFails hj | resume _ hj =>
      exact .inl (hcalled hi (by simp [hj]))
    | add | done | exchange | advance | reuse => exact .inl hi
  · exact .inl hi

/-- A `done` comes to its exchange by bringing the count to zero. -/
theorem step_exchange (hs : freeStep s l = some s') (hd : s'.done d = .exchange) :
    s.done d = .exchange ∨ s'.count = 0 := by
  have hother : ∀ {e pc}, Function.update s.done e pc d = .exchange → pc ≠ .exchange →
      s.done d = .exchange := fun hupdate hpc => of_update_eq hupdate hpc
  -- A call of `done` is at its exchange after the step that brings one to zero.
  have hdone : ∀ {e}, Function.update s.done e (if s.count = 1 then .exchange else .out) d =
      .exchange → s.done d = .exchange ∨ wrap32 (s.count - 1) = 0 := by
    intro e hupdate
    by_cases hone : s.count = 1
    · right
      rw [hone]
      rfl
    · exact .inl (hother hupdate (by simp [hone]))
  rcases freeStep_cases hs with hs | ⟨e, rfl, he, rfl⟩
  · cases step_cases hs with
    | done => exact hdone hd
    | exchange => exact .inl (hother hd (by cases s.head <;> simp [loopPc]))
    | resume => exact .inl (hother hd (by simp))
    | @advance _ a => exact .inl (hother hd (by cases s.next a <;> simp [loopPc]))
    | wait | loadCount | loadHead | push | casFails | add | reuse => exact .inl hd
  · exact hdone hd

theorem Seen.init (h : Init s₀) : Seen s₀ [] s₀ [] fun _ => [] where
  linked := .init h
  captured_saw d i hi := by simp at hi
  called_saw d hd := by simp [h.done_out d] at hd

/-- A step in a round. -/
theorem Seen.step (h : Seen s₀ as s stack captured) (hrun : (freeMachine ι δ).run s₀ as = some s)
    (hg : InRound s l) (hs : freeStep s l = some s') :
    ∃ stack' captured', Seen s₀ (as ++ [l]) s' stack' captured' := by
  obtain ⟨stack', captured', hlinked, hfrom⟩ := h.linked.freeStep hg.keepsLinks hs
  have hrun' : (freeMachine ι δ).run s₀ (as ++ [l]) = some s' :=
    Machine.run_concat.mpr ⟨s, hrun, hs⟩
  have hsusp : ∀ i, s.wait i = .suspended → l ≠ .wait i := by
    rintro i hi rfl
    obtain ⟨hout, _⟩ := Option.ite_none_right_eq_some.mp hs
    rw [hi] at hout
    cases hout
  refine ⟨stack', captured', hlinked, ?_, ?_⟩
  · intro d i hi
    rcases hfrom d i hi with hold | ⟨rfl, hmem⟩
    · have hwait := (h.linked.lists.suspended_iff i).mpr (.inr ⟨d, hold⟩)
      exact (h.captured_saw d i hold).later (hsusp i hwait)
    · have hwait := (h.linked.lists.suspended_iff i).mpr (.inl hmem)
      obtain ⟨hd, _⟩ := Option.ite_none_right_eq_some.mp hs
      exact (h.called_saw d hd i (by simp [hwait])).later (by simp)
  · intro d hd i hi
    rcases step_exchange hs hd with hbefore | hzero
    · rcases step_called hs hi with hcall | ⟨rfl, hcount⟩
      · apply (h.called_saw d hbefore i hcall).later
        rintro rfl
        obtain ⟨hout, _⟩ := Option.ite_none_right_eq_some.mp hs
        exact hcall hout
      · -- A new call: the condition says that its count is zero.
        have hzero : s.count = 0 := hg.1.resolve_right fun hno => hno d hbefore
        exact .now hrun' (hcount.trans hzero) hi
    · exact .now hrun' hzero hi

end Lemmas

/-- In a run in which no `wait` begins between the two steps of a `done` that
ends a round, whoever runs past `co_await wg.wait()` has been in that call
when the count was zero. -/
theorem wait_not_early {s₀ s s' : State ι δ} {as : List (Label ι δ)} {l : Label ι δ} {i : ι}
    (h0 : (freeMachine ι δ).init s₀)
    (hround : (freeMachine ι δ).Along (fun s l _ => InRound s l) s₀ as)
    (hrun : (freeMachine ι δ).run s₀ as = some s) (hs : freeStep s l = some s')
    (hret : Returns s l i) : SawZero s₀ as i := by
  have hseen : ∃ stack captured, Seen s₀ as s stack captured := by
    refine hround.path_invariant (I := fun as s => ∃ stack captured, Seen s₀ as s stack captured)
      ⟨_, _, .init h0⟩ ?_ hrun
    rintro as s l s' hrun ⟨stack, captured, hseen⟩ hg hs
    exact hseen.step hrun hg hs
  obtain ⟨stack, captured, hseen⟩ := hseen
  cases l with
  | loadCount j =>
    obtain ⟨rfl, hcount⟩ := hret
    obtain ⟨hj, _⟩ := Option.ite_none_right_eq_some.mp hs
    exact .now hrun hcount (by simp [hj])
  | resume d =>
    have hd : s.done d = .resume i := hret
    have hc := hseen.linked.lists.captured_chain d
    simp only [cursor, hd] at hc
    obtain ⟨rest, hrest, _⟩ := Chain.some_iff.mp hc
    exact hseen.captured_saw d i (by simp [hrest])
  | _ => exact hret.elim

instance [Fintype δ] (s : State ι δ) : DecidablePred (InRound s)
  | .wait i =>
    inferInstanceAs (Decidable
      ((s.count = 0 ∨ ∀ d, s.done d ≠ .exchange) ∧ ∀ d, s.done d ≠ .advance i))
  | .reuse i _ => inferInstanceAs (Decidable (∀ d, s.done d ≠ .advance i))
  | .add _ | .exchange _ | .loadCount _ | .loadHead _ | .casHead _ _ | .done _ | .resume _
  | .advance _ => inferInstanceAs (Decidable True)

/-- A waiter parks, the only `done` captures it, and the next round has begun
when it is resumed. -/
theorem wait_not_early_next_round :
    SawZero (start 1) [.wait (), .loadCount (), .loadHead (), .casHead () false, .done (),
      .exchange (), .add 1] () := by
  have hrun : ((freeMachine Unit Unit).runUnder InRound (start 1)
      [.wait (), .loadCount (), .loadHead (), .casHead () false, .done (), .exchange (),
        .add 1]).map (fun s => decide (s.wait () = .suspended ∧ s.done () = .resume ())) =
      some true := by decide
  obtain ⟨s, hs, htest⟩ := Option.map_eq_some_iff.mp hrun
  obtain ⟨hwait, hdone⟩ := of_decide_eq_true htest
  obtain ⟨hround, hs⟩ := Machine.Along.of_runUnder hs
  obtain ⟨t, ht⟩ := resume_enabled hdone hwait
  exact wait_not_early (start_init (by decide)) hround hs ht hdone

/-- The first round ends, the second one begins and its waiter is pushed
before the `done` of the first takes the list. -/
def earlyRun : List (Label Unit Unit) :=
  [.done (), .add 1, .wait (), .loadCount (), .loadHead (), .casHead () false, .exchange ()]

/-- The waiter of the second round is resumed, and the count was `1` all the
time. -/
theorem returns_early :
    ∃ s s' : State Unit Unit, (freeMachine Unit Unit).run (start 1) earlyRun = some s ∧
      freeStep s (.resume ()) = some s' ∧ Returns s (.resume ()) () ∧
      ¬ SawZero (start 1) earlyRun () := by
  have hrun : ((freeMachine Unit Unit).run (start 1) earlyRun).map (fun s =>
      decide (s.wait () = .suspended ∧ s.done () = .resume ())) = some true := by decide
  obtain ⟨s, hs, htest⟩ := Option.map_eq_some_iff.mp hrun
  obtain ⟨hwait, hdone⟩ := of_decide_eq_true htest
  obtain ⟨t, ht⟩ := resume_enabled hdone hwait
  refine ⟨s, t, hs, ht, hdone, ?_⟩
  -- No state of the run has the count at zero and the waiter in its call.
  have hnever : ∀ k ∈ List.range 8, ((freeMachine Unit Unit).run (start 1) (earlyRun.take k)).map
      (fun u => decide (u.count = 0 ∧ u.wait () ≠ .out)) ≠ some true := by decide
  rintro ⟨pre, post, u, hsplit, hu, hcount, hcall, _⟩
  have hlen := congrArg List.length hsplit
  have hpre : earlyRun.take pre.length = pre := by rw [hsplit, List.take_left]
  refine hnever pre.length ?_ ?_
  · rw [List.length_append] at hlen
    have hseven : earlyRun.length = 7 := rfl
    rw [List.mem_range]
    omega
  · rw [hpre, hu]
    simp [hcount, hcall]

end SheepCoro.WaitGroup
