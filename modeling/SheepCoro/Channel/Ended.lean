import SheepCoro.Channel.Close
import SheepCoro.Lib.History

/-!
# After a `recv` has given up

From then on the channel is closed and its buffer is empty.  A `recv` that was
waiting then finds its predicate true and gives up as well (`GivesUp`).  A
`recv` that begins later either sees `complete_close` at once or goes through
the mutex; `close` may have stored `part_close` again in between.  It never
parks, since its predicate is true the first time it evaluates it, and it
never takes a value: all it can wait for is the mutex (`Ending`), until its own
step logs that it returns nothing (`GaveUp`).
-/

namespace SheepCoro.Channel

open Lib

variable {ι T : Type} [DecidableEq ι]

/-- The next step of a `recv` that waits, or has waited, on the condition
variable. -/
structure GivesUp (cap : Nat) (s : State ι T) (i : ι) : Prop where
  take : s.pc i ≠ .recvTake
  evalWait : s.pc i = .recvWait → s.sync.hold i = .evalWait →
    ∃ s', step cap s (.eval i) = some s' ∧ s'.sync.hold i = .inside
  evalResume : s.pc i = .recvWait → s.sync.hold i = .evalResume →
    ∃ s', step cap s (.eval i) = some s' ∧ s'.sync.hold i = .granted
  wait : s.pc i = .recvWait → s.sync.hold i = .inside →
    ∃ s', step cap s (.client i) = some s' ∧ s'.log = s.log ++ [.recvNull] ∧
      s'.pc i = .recvComplete

/-- Where a `recv` can be that began after another one had given up, and its
next step there. -/
inductive Ending (cap : Nat) (s : State ι T) (i : ι) : Prop
  /-- It gives up at once, or it asks for the mutex. -/
  | start (hpc : s.pc i = .recvStart) (hnext : ∃ s', step cap s (.client i) = some s' ∧
      (s'.log = s.log ++ [.recvNull] ∧ s'.pc i = .idle ∨
        s'.log = s.log ∧ s'.pc i = .recvLock))
  | register (hpc : s.pc i = .recvLock) (hnext : ∃ s', step cap s (.registerLock i false) = some s')
  /-- Somebody who unlocks hands it the mutex. -/
  | inLine (hpc : s.pc i = .recvLock) (hloc : s.sync.loc i = .queued)
  | enter (hpc : s.pc i = .recvLock) (hnext : ∃ s', step cap s (.enter i) = some s')
  | lock (hpc : s.pc i = .recvLock) (hnext : ∃ s', step cap s (.client i) = some s' ∧
      s'.pc i = .recvWait ∧ s'.sync.hold i = .evalWait)
  | eval (hpc : s.pc i = .recvWait) (hnext : ∃ s', step cap s (.eval i) = some s' ∧
      s'.pc i = .recvWait ∧ s'.sync.hold i = .inside)
  | wait (hpc : s.pc i = .recvWait) (hnext : ∃ s', step cap s (.client i) = some s' ∧
      s'.log = s.log ++ [.recvNull] ∧ s'.pc i = .recvComplete)

/-- In a run from `s` the call of `i` has logged that it returns nothing. -/
def GaveUp (cap : Nat) (s : State ι T) (bs : List (Label ι T)) (i : ι) : Prop :=
  ∃ pre post u v, bs = pre ++ .client i :: post ∧ (machine ι T cap).run s pre = some u ∧
    Ending cap u i ∧ step cap u (.client i) = some v ∧ v.log = u.log ++ [.recvNull]

/-- A `recv` before its first step does not wait and does not have the
lock. -/
def Begins (s : State ι T) : Prop :=
  ∀ i, s.pc i = .recvStart → Sync.Outside s.sync i

/-- What holds of a `recv` that began after another one had given up, as long
as it has not logged its outcome. -/
inductive Late (s : State ι T) (i : ι) : Prop
  | start (hpc : s.pc i = .recvStart) (hout : Sync.Outside s.sync i)
  | lock (hpc : s.pc i = .recvLock) (hacq : Sync.Acquires s.sync i)
  | wait (hpc : s.pc i = .recvWait) (hhold : s.sync.hold i = .evalWait ∨ s.sync.hold i = .inside)

section Steps

variable {cap : Nat} {s s' : State ι T} {a : Label ι T} {i : ι} {q : List T}

/-- A call is only begun by a coroutine that is not in one. -/
theorem client_of_caller (hs : step cap s a = some s') (ha : a.caller = some i)
    (hpc : (s.pc i).isIdle = false) : a = .client i := by
  cases a with
  | send j | recv j | close j =>
    cases ha
    obtain ⟨hcall, _⟩ := Option.ite_none_right_eq_some.mp hs
    rw [hcall.1] at hpc
    cases hpc
  | client j =>
    cases ha
    rfl
  | registerLock | enter | eval | registerCv | unlock | reuse => cases ha

/-- The steps of the others leave a coroutine outside that is outside. -/
theorem outside_step (hg : Sync.Good s.sync) (h : Sync.Outside s.sync i)
    (hs : step cap s a = some s') (ha : a ≠ .client i) : Sync.Outside s'.sync i := by
  rcases (step_frame hs).sync with heq | ⟨l, -, hcaller, hl⟩
  · rwa [heq]
  · exact h.step hg hl (fun hi => ha (hcaller i (hi ▸ rfl))) fun hi => ha (hcaller i (hi ▸ rfl))

/-- No step of a call leads to the beginning of a `recv`. -/
theorem client_ne_recvStart (hs : clientStep cap s i (s.pc i) = some s') :
    s'.pc i ≠ .recvStart := by
  have hgoto : ∀ (u : State ι T) {p : Pc T}, p ≠ .recvStart → (u.goto i p).pc i ≠ .recvStart := by
    intro u p hp
    simpa [State.goto] using hp
  have hmap : ∀ {l} {p : Pc T}, p ≠ .recvStart →
      (s.onSync l).map (fun u => u.goto i p) = some s' → s'.pc i ≠ .recvStart := by
    intro l p hp hu
    obtain ⟨u, -, rfl⟩ := Option.map_eq_some_iff.mp hu
    exact hgoto u hp
  have hon : ∀ {l}, s.pc i ≠ .recvStart → s.onSync l = some s' → s'.pc i ≠ .recvStart := by
    intro l hp hu
    obtain ⟨y, -, rfl⟩ := onSync_eq_some.mp hu
    exact hp
  cases hp : s.pc i with
  | idle =>
    rw [hp] at hs
    cases hs
  | sendStart | recvStart =>
    simp only [clientStep, hp] at hs
    split_ifs at hs
    · cases hs
      exact hgoto _ (by simp)
    · exact hmap (by simp) hs
  | sendLock | recvLock | sendNotify | recvNotify | unlock | closeProducer | closeConsumer =>
    simp only [clientStep, hp] at hs
    exact hmap (by simp) hs
  | sendWait | recvWait =>
    simp only [clientStep, hp] at hs
    split_ifs at hs <;> cases hs <;> exact hgoto _ (by simp)
  | sendStore | recvTake | recvComplete | closeStore =>
    simp only [clientStep, hp, Option.some.injEq] at hs
    subst hs
    exact hgoto _ (by simp)
  | closeProducerLoop | closeConsumerLoop =>
    simp only [clientStep, hp] at hs
    split_ifs at hs
    · cases hs
      exact hgoto _ (by simp)
    · exact hon (by simp [hp]) hs

theorem Begins.step (h : Begins s) (hg : Sync.Good s.sync) (hs : Channel.step cap s a = some s') :
    Begins s' := by
  intro i hpc
  by_cases ha : a.caller = some i
  · cases a with
    | recv j =>
      cases ha
      obtain ⟨hcall, ⟨⟩⟩ := Option.ite_none_right_eq_some.mp hs
      exact hcall.2
    | send j | close j =>
      cases ha
      obtain ⟨_, ⟨⟩⟩ := Option.ite_none_right_eq_some.mp hs
      simp [State.goto] at hpc
    | client j =>
      -- No step of a call leads to the beginning of one.
      cases ha
      exact absurd hpc (client_ne_recvStart hs)
    | registerLock | enter | eval | registerCv | unlock | reuse => cases ha
  · rw [(step_frame hs).pc i ha] at hpc
    refine outside_step hg (h i hpc) hs ?_
    rintro rfl
    exact ha rfl

/-- Only the steps of the holder move a `recv` that evaluates its predicate
or runs behind its wait, and the predicate is true. -/
theorem Late.step_wait (hg : Sync.Good s.sync) (hclosed : s.partClosed = true)
    (hpc : s'.pc i = .recvWait)
    (hhold : s.sync.hold i = .evalWait ∨ s.sync.hold i = .inside)
    (hs : Channel.step cap s a = some s') (ha : a ≠ .client i) : Late s' i := by
  have hne : s.sync.hold i ≠ .none := by
    rcases hhold with hh | hh <;> simp [hh]
  rcases (step_frame hs).sync with heq | ⟨l, hoffers, hcaller, hl⟩
  · exact .wait hpc (by rwa [heq])
  · rcases hg.holder_frame hne hl with ⟨hkeep, -⟩ | hown
    · exact .wait hpc (by rwa [hkeep])
    · cases l with
      | callUnlock j | wait j =>
        cases hown
        exact absurd (hcaller _ rfl) ha
      | eval j value =>
        cases hown
        cases cond_of_closed hclosed hoffers
        simp only [Sync.step] at hl
        split at hl
        · refine .wait hpc (.inr ?_)
          rw [← Option.some.inj hl]
          exact Function.update_self ..
        · next hh => rcases hhold with hold | hold <;> rw [hold] at hh <;> cases hh
        · cases hl
      | enter j | registerCv j | unlock j =>
        cases hown
        rcases hhold with hold | hold <;>
          simp [Sync.step, Sync.unlock, hold] at hl
      | lock | tryLock | registerLock | notifyOne | notifyAll | notifyNext | reuse =>
        exact hown.elim

/-- The own steps of such a call. -/
theorem Late.client (h : Late s i) (hinv : Inv cap s q) (hnull : .recvNull ∈ s.log)
    (hs : Channel.step cap s (.client i) = some s') :
    Late s' i ∨ s'.log = s.log ++ [.recvNull] := by
  obtain ⟨rfl, hclosed⟩ := hinv.shared.ended hnull
  simp only [Channel.step] at hs
  cases h with
  | start hpc hout =>
    simp only [clientStep, hpc] at hs
    split_ifs at hs
    · cases hs
      exact .inr rfl
    · obtain ⟨u, hu, rfl⟩ := Option.map_eq_some_iff.mp hs
      obtain ⟨y, hy, rfl⟩ := onSync_eq_some.mp hu
      obtain ⟨_, ⟨⟩⟩ := Option.ite_none_right_eq_some.mp hy
      exact .inl (.lock (Function.update_self ..) ⟨Function.update_self ..,
        .inl ⟨.inl (Function.update_self ..), hout.2⟩⟩)
  | lock hpc hacq =>
    simp only [clientStep, hpc] at hs
    obtain ⟨u, hu, rfl⟩ := Option.map_eq_some_iff.mp hs
    obtain ⟨y, hy, rfl⟩ := onSync_eq_some.mp hu
    obtain ⟨_, ⟨⟩⟩ := Option.ite_none_right_eq_some.mp hy
    exact .inl (.wait (Function.update_self ..) (.inl (Function.update_self ..)))
  | wait hpc hhold =>
    have hempty := hinv.shared.holds.empty_iff.mpr rfl
    simp only [clientStep, hpc, hempty, hclosed, Bool.and_self, if_true] at hs
    obtain ⟨_, ⟨⟩⟩ := Option.ite_none_right_eq_some.mp hs
    exact .inr rfl

/-- A step keeps such a call on its way, or it is the step that logs that the
call returns nothing. -/
theorem Late.step (h : Late s i) (hg : Sync.Good s.sync) (hinv : Inv cap s q)
    (hnull : .recvNull ∈ s.log) (hs : Channel.step cap s a = some s') :
    Late s' i ∨ a = .client i ∧ s'.log = s.log ++ [.recvNull] := by
  have hidle : (s.pc i).isIdle = false := by
    cases h with
    | start hpc | lock hpc | wait hpc =>
      rw [hpc]
      rfl
  by_cases ha : a = .client i
  · subst ha
    exact (h.client hinv hnull hs).imp_right fun hlog => ⟨rfl, hlog⟩
  · have hpc' : s'.pc i = s.pc i :=
      (step_frame hs).pc i fun hi => ha (client_of_caller hs hi hidle)
    left
    cases h with
    | start hpc hout => exact .start (hpc'.trans hpc) (outside_step hg hout hs ha)
    | lock hpc hacq =>
      refine .lock (hpc'.trans hpc) ?_
      rcases (step_frame hs).sync with heq | ⟨l, -, hcaller, hl⟩
      · rwa [heq]
      · exact hacq.step hg hl fun hi => ha (hcaller i hi)
    | wait hpc hhold =>
      exact .step_wait hg (hinv.shared.ended hnull).2 (hpc'.trans hpc) hhold hs ha

/-- A step of the mutex that is enabled is a step of the call that takes it. -/
theorem client_enabled {l : Sync.Label ι Cv ι} {y : Sync.State ι Cv ι} {p : Pc T}
    (hp : clientStep cap s i (s.pc i) = (s.onSync l).map (·.goto i p))
    (hy : Sync.step s.sync l = some y) :
    Channel.step cap s (.client i) = some ({ s with sync := y }.goto i p) := by
  have hu : s.onSync l = some { s with sync := y } := onSync_eq_some.mpr ⟨y, hy, rfl⟩
  simp only [Channel.step, hp, hu, Option.map_some]

/-- A closed channel answers every predicate with `true`. -/
theorem eval_enabled {y : Sync.State ι Cv ι} (hpc : s.pc i = .recvWait)
    (hclosed : s.partClosed = true) (hy : Sync.step s.sync (.eval i true) = some y) :
    Channel.step cap s (.eval i) = some { s with sync := y } := by
  have hcond : s.cond cap i = some true := by simp [State.cond, hpc, hclosed]
  simp only [Channel.step, hcond, Option.bind_some]
  exact onSync_eq_some.mpr ⟨y, hy, rfl⟩

theorem Inv.recvWait_evalWait (h : Inv cap s q) (hnull : .recvNull ∈ s.log)
    (hpc : s.pc i = .recvWait) (hhold : s.sync.hold i = .evalWait) :
    ∃ s', Channel.step cap s (.eval i) = some s' ∧ s'.pc i = .recvWait ∧
      s'.sync.hold i = .inside := by
  have hy : Sync.step s.sync (.eval i true) = some (s.sync.setHold i .inside) := by
    simp [Sync.step, hhold]
  exact ⟨_, eval_enabled hpc (h.shared.ended hnull).2 hy, hpc, Function.update_self ..⟩

theorem Inv.recvWait_inside (h : Inv cap s q) (hnull : .recvNull ∈ s.log)
    (hpc : s.pc i = .recvWait) (hhold : s.sync.hold i = .inside) :
    ∃ s', Channel.step cap s (.client i) = some s' ∧ s'.log = s.log ++ [.recvNull] ∧
      s'.pc i = .recvComplete := by
  obtain ⟨rfl, hclosed⟩ := h.shared.ended hnull
  have hempty := h.shared.holds.empty_iff.mpr rfl
  refine ⟨(s.record .recvNull).goto i .recvComplete, ?_, rfl, Function.update_self ..⟩
  simp [Channel.step, clientStep, hpc, hhold, hempty, hclosed]

/-- The next step of a `recv` that began after another one had given up. -/
theorem Late.ending (h : Late s i) (hinv : Inv cap s q) (hnull : .recvNull ∈ s.log) :
    Ending cap s i := by
  cases h with
  | start hpc hout =>
    refine .start hpc ?_
    by_cases hcomplete : s.completeClosed = true
    · refine ⟨(s.record .recvNull).goto i .idle, ?_, .inl ⟨rfl, Function.update_self ..⟩⟩
      simp only [Channel.step, clientStep, hpc, hcomplete, if_true]
    · have hp : clientStep cap s i (s.pc i) = (s.onSync (.lock i)).map (·.goto i .recvLock) := by
        simp only [clientStep, hpc, if_neg hcomplete]
      exact ⟨_, client_enabled hp (if_pos hout), .inr ⟨rfl, Function.update_self ..⟩⟩
  | lock hpc hacq =>
    obtain ⟨-, ⟨hloc, -⟩ | ⟨-, hruns⟩⟩ := hacq
    · have hreg : s.sync.loc i = .queued ∨
          ∃ y, Sync.step s.sync (.registerLock i false) = some y := by
        rcases hloc with hl | ⟨e, hl⟩ | hl
        · exact .inr ⟨_, by simp only [Sync.step, Sync.registerLock, hl]; rfl⟩
        · right
          simp only [Sync.step, Sync.registerLock, hl]
          split_ifs
          · cases e <;> exact ⟨_, rfl⟩
          · exact ⟨_, rfl⟩
        · exact .inl hl
      rcases hreg with hqueued | ⟨y, hy⟩
      · exact .inLine hpc hqueued
      · exact .register hpc ⟨_, onSync_eq_some.mpr ⟨y, hy, rfl⟩⟩
    · rcases hruns with hh | hh
      · exact .enter hpc ⟨_, onSync_eq_some.mpr ⟨_, if_pos hh, rfl⟩⟩
      · have hp : clientStep cap s i (s.pc i) =
            (s.onSync (.wait i .consumer true)).map (·.goto i .recvWait) := by
          simp only [clientStep, hpc]
        exact .lock hpc ⟨_, client_enabled hp (if_pos hh), Function.update_self ..,
          Function.update_self ..⟩
  | wait hpc hhold =>
    rcases hhold with hh | hh
    · exact .eval hpc (hinv.recvWait_evalWait hnull hpc hh)
    · exact .wait hpc (hinv.recvWait_inside hnull hpc hh)

/-- Every `recv`, also one that was waiting when another one gave up. -/
theorem Inv.givesUp (h : Inv cap s q) (hnull : .recvNull ∈ s.log) (i : ι) : GivesUp cap s i where
  take hpc := by
    -- There is nothing to take.
    have hok := h.pcs i
    rw [hpc] at hok
    have hempty := h.shared.holds.empty_iff.mpr (h.shared.ended hnull).1
    rw [hok.2] at hempty
    cases hempty
  evalWait hpc hhold := by
    obtain ⟨s', hs, -, hin⟩ := h.recvWait_evalWait hnull hpc hhold
    exact ⟨s', hs, hin⟩
  evalResume hpc hhold := by
    have hy : Sync.step s.sync (.eval i true) = some (s.sync.setHold i .granted) := by
      simp [Sync.step, hhold]
    exact ⟨_, eval_enabled hpc (h.shared.ended hnull).2 hy, Function.update_self ..⟩
  wait hpc hhold := h.recvWait_inside hnull hpc hhold

end Steps

theorem begins_of_reachable {cap : Nat} {s : State ι T} (h : (machine ι T cap).Reachable s) :
    Begins s := by
  refine h.invariant (I := Begins) (fun s h0 i hpc => ?_) ?_
  · rw [Init.pc h0 i] at hpc
    cases hpc
  · intro s a s' hr hbegins hs
    exact hbegins.step (sync_good hr) hs

/-- A `recv` that begins after another one has given up, in every run. -/
theorem late_run {cap : Nat} {s t : State ι T} {bs : List (Label ι T)} {i : ι}
    (h : (machine ι T cap).Reachable s) (hnull : .recvNull ∈ s.log) (hpc : s.pc i = .recvStart)
    (hrun : (machine ι T cap).run s bs = some t) : Ending cap t i ∨ GaveUp cap s bs i := by
  have hending : ∀ u, (machine ι T cap).Reachable u → Late u i ∧ .recvNull ∈ u.log →
      Ending cap u i := by
    rintro u hu ⟨hlate, hmem⟩
    obtain ⟨q, hinv⟩ := inv_of_reachable hu
    exact hlate.ending hinv hmem
  have hstart : Late s i := .start hpc (begins_of_reachable h i hpc)
  have huntil := Machine.run_until (M := machine ι T cap)
    (P := fun u => (machine ι T cap).Reachable u ∧ Late u i ∧ .recvNull ∈ u.log)
    (E := fun u a => a = .client i ∧
      ∃ v, step cap u a = some v ∧ v.log = u.log ++ [.recvNull])
    (fun u a v hu hP hs => ?_) h ⟨h, hstart, hnull⟩ hrun
  · rcases huntil with ⟨ht, hlast⟩ | ⟨pre, a, post, u, heq, hu, ⟨hr, hlate⟩, rfl, v, hv, hlog⟩
    · exact .inl (hending t ht hlast)
    · exact .inr ⟨pre, post, u, v, heq, hu, hending u hr hlate, hv, hlog⟩
  · obtain ⟨-, hlate, hmem⟩ := hP
    obtain ⟨q, hinv⟩ := inv_of_reachable hu
    rcases hlate.step (sync_good hu) hinv hmem hs with hkeep | ⟨rfl, hlog⟩
    · exact .inl ⟨hu.next hs, hkeep, (step_frame hs).log.subset hmem⟩
    · exact .inr ⟨rfl, v, hs, hlog⟩

/-- In every reachable state of a channel of any capacity: the received
values are a prefix of the sent ones, at most `max(capacity, 1)` behind; a
`recv` gave up only when every sent value had been received; and after that
nothing was sent or received.  Once a `recv` has given up, a `recv` that was
waiting does so too when it runs again, and a `recv` that begins later is on
its way to that at every point of every run, or it has given up. -/
theorem channel_fifo (cap : Nat) (s : State ι T) (h : (machine ι T cap).Reachable s) :
    received s.log <+: sent s.log ∧
    (sent s.log).length - (received s.log).length ≤ max cap 1 ∧
    (∀ pre post, s.log = pre ++ .recvNull :: post →
      received pre = sent pre ∧ sent post = [] ∧ received post = []) ∧
    (.recvNull ∈ s.log → ∀ i, GivesUp cap s i ∧
      (s.pc i = .recvStart → ∀ bs t, (machine ι T cap).run s bs = some t →
        Ending cap t i ∨ GaveUp cap s bs i)) := by
  obtain ⟨q, hinv⟩ := inv_of_reachable h
  have hcons := hinv.shared.conserved
  refine ⟨⟨q, hcons.symm⟩, ?_, hinv.shared.final, fun hnull i => ⟨hinv.givesUp hnull i, ?_⟩⟩
  · rw [hcons, List.length_append]
    have hle := hinv.shared.holds.length_le
    omega
  · intro hpc bs t hrun
    exact late_run h hnull hpc hrun

/-- A value is sent and received, the channel is closed, and the next `recv`
gives up.  The one after it sees the channel only half closed, since `close`
was called once more, and gives up behind its wait. -/
theorem channel_fifo_closed : ∃ s bs t, (machine Nat Nat 2).Reachable s ∧
    s.log = [.sendTrue 5, .recvSome 5, .recvNull] ∧ received s.log <+: sent s.log ∧
    s.pc 2 = .recvStart ∧ (machine Nat Nat 2).run s bs = some t ∧
    t.log = [.sendTrue 5, .recvSome 5, .recvNull, .recvNull] ∧
    (Ending 2 t 2 ∨ GaveUp 2 s bs 2) := by
  have hrun : ((machine Nat Nat 2).run (newState (.masked 0 0 fun _ => 0))
      [.send 0 5, .client 0, .registerLock 0 false, .registerLock 0 false, .enter 0,
        .client 0, .eval 0, .client 0, .client 0, .client 0, .client 0, .unlock 0, .unlock 0,
        .recv 1, .client 1, .registerLock 1 false, .registerLock 1 false, .enter 1,
        .client 1, .eval 1, .client 1, .client 1, .client 1, .client 1, .unlock 1, .unlock 1,
        .close 0, .client 0, .client 0, .client 0, .client 0, .client 0,
        .recv 1, .client 1, .registerLock 1 false, .registerLock 1 false, .enter 1,
        .client 1, .eval 1, .client 1, .client 1, .client 1, .unlock 1, .unlock 1,
        .close 0, .client 0, .client 0, .client 0, .client 0, .client 0, .recv 2]).map
      (fun s => decide (s.log = [.sendTrue 5, .recvSome 5, .recvNull] ∧ s.pc 2 = .recvStart ∧
        ((machine Nat Nat 2).run s [.client 2, .registerLock 2 false, .registerLock 2 false,
          .enter 2, .client 2, .eval 2, .client 2]).map (fun t => t.log) =
            some [.sendTrue 5, .recvSome 5, .recvNull, .recvNull])) = some true := by
    decide
  have hinit : (machine Nat Nat 2).init (newState (.masked 0 0 fun _ => 0)) :=
    init_newState ⟨⟨1, by decide, rfl⟩, rfl, rfl⟩
  obtain ⟨s, hreach, htest⟩ := Machine.reachable_of_run hinit hrun
  obtain ⟨hlog, hpc, hmap⟩ := of_decide_eq_true htest
  obtain ⟨t, ht, hlogt⟩ := Option.map_eq_some_iff.mp hmap
  have hnull : .recvNull ∈ s.log := by simp [hlog]
  exact ⟨s, _, t, hreach, hlog, (channel_fifo 2 s hreach).1, hpc, ht, hlogt,
    ((channel_fifo 2 s hreach).2.2.2 hnull 2).2 hpc _ t ht⟩

end SheepCoro.Channel
