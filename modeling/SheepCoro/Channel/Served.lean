import SheepCoro.Channel.Fifo
import SheepCoro.Sync.Notify
import Mathlib

/-!
# No runnable party of an open channel stays parked

Receivers wait for values and senders for free slots.  What there is of
either is `avail`.  Every `send` and every `recv` makes one more available to
the other side and then calls `notify_one` once.  The party that is woken
has to get the lock again, and a newcomer may overtake it and take what it
was woken for; it then finds its predicate false and parks again.

The count that every step keeps is that of the parties that were woken and
have neither taken what they were woken for nor found their predicate false
again.  While somebody is parked, there is no more available than this many,
except that the party between its store and its `notify_one` is one behind
(`Fair.bound`).  Somebody parks only where nothing is available, and from
there on every step adds as much to the one side as to the other.
-/

namespace SheepCoro.Channel

open Lib

section Definitions

variable {T : Type}

/-- In the wait on `k`, or right behind it. -/
def Pc.waits (k : Cv) : Pc T → Bool
  | .sendWait _ => decide (k = .producer)
  | .recvWait => decide (k = .consumer)
  | _ => false

/-- About to take what the waiters of `k` wait for. -/
def Pc.takes (k : Cv) : Pc T → Bool
  | .sendStore _ => decide (k = .producer)
  | .recvTake => decide (k = .consumer)
  | _ => false

/-- About to call `notify_one` on `k`. -/
def Pc.owes (k : Cv) : Pc T → Bool
  | .sendNotify => decide (k = .consumer)
  | .recvNotify => decide (k = .producer)
  | _ => false

/-- In `close`, behind the store. -/
def Pc.closing : Pc T → Bool
  | .closeProducer | .closeProducerLoop | .closeConsumer | .closeConsumerLoop => true
  | _ => false

/-- What the waiters of a condition variable wait for: receivers for values,
senders for free slots. -/
def avail (cap : Nat) (b : Buffer T) : Cv → Nat
  | .consumer => b.size
  | .producer => max cap 1 - b.size

variable {ι : Type} [DecidableEq ι]

/-- The parties that were woken on `k` and have neither taken what they were
woken for nor found their predicate false again. -/
def noteWoken (cap : Nat) (s : State ι T) (a : Label ι T) (woken : Cv → Finset ι) (k : Cv) :
    Finset ι :=
  match a with
  | .client i =>
    if (s.pc i).takes k then (woken k).erase i
    else if (s.pc i).owes k then (s.sync.cvHead k).toFinset ∪ woken k
    else woken k
  | .eval i => if s.cond cap i = some false then (woken k).erase i else woken k
  | _ => woken k

end Definitions

variable {ι T : Type} [DecidableEq ι]

/-! ## Where the waiters are -/

structure Places (cap : Nat) (s : State ι T) : Prop where
  kinds : ∀ i k, (s.pc i).waits k = true → s.sync.kind i = .cvAwaiter k true
  parked : ∀ i k, s.sync.loc i = .parked k → (s.pc i).waits k = true
  /-- Whoever has found its predicate false still has the lock, so it is
  still false. -/
  registering : ∀ i, s.sync.hold i = .registerCv →
    ∃ k, (s.pc i).waits k = true ∧ avail cap s.buffer k = 0
  closing : ∀ i, (s.pc i).closing = true → s.partClosed = true

/-- A step of the call of `i`, which is at `p` afterwards. -/
structure Moves (s : State ι T) (i : ι) (p : Pc T) (s' : State ι T) : Prop where
  pc : s'.pc = Function.update s.pc i p
  parked : ∀ j k, s'.sync.loc j = .parked k → s.sync.loc j = .parked k
  registering : ∀ j, s'.sync.hold j = .registerCv → s.sync.hold j = .registerCv
  kind : ∀ j, j ≠ i → s'.sync.kind j = s.sync.kind j
  /-- A call comes to its wait through `co_await wait(mtx, cond)`. -/
  arrives : ∀ k, p.waits k = true → s'.sync.kind i = .cvAwaiter k true
  /-- It leaves the wait when it runs with the lock, to take what is there. -/
  leaves : ∀ k, (s.pc i).waits k = true → s.sync.hold i = .inside ∧
    (s.partClosed = false → p.takes k = true)
  buffer : s'.buffer = s.buffer ∨ s.sync.hold i = .inside
  closing : p.closing = true → s'.partClosed = true

/-- What a step of the call of `i` does to what there is for the waiters of
`k`. -/
inductive Effect (cap : Nat) (s : State ι T) (i : ι) (p : Pc T) (s' : State ι T) (k : Cv) : Prop
  | takes (hpc : (s.pc i).takes k = true)
      (havail : avail cap s'.buffer k + 1 = avail cap s.buffer k)
  | adds (htakes : (s.pc i).takes k = false) (howes : (s.pc i).owes k = false)
      (hpc : p.owes k = true) (havail : avail cap s'.buffer k = avail cap s.buffer k + 1)
  | notifies (htakes : (s.pc i).takes k = false) (hpc : (s.pc i).owes k = true)
      (havail : avail cap s'.buffer k = avail cap s.buffer k)
      (hsync : s'.sync = Sync.notifyOne s.sync k)
  | none (htakes : (s.pc i).takes k = false) (howes : (s.pc i).owes k = false)
      (havail : avail cap s'.buffer k = avail cap s.buffer k)

section Steps

variable {cap : Nat} {s s' : State ι T} {q : List T} {i : ι} {p : Pc T} {k : Cv}

/-- No pointer or word of the mutex changes. -/
theorem Moves.of_sync (hsync : s'.sync = s.sync) (hpc : s'.pc = Function.update s.pc i p)
    (hp : ∀ k, p.waits k = false)
    (hleaves : ∀ k, (s.pc i).waits k = true → s.sync.hold i = .inside ∧
      (s.partClosed = false → p.takes k = true))
    (hbuffer : s'.buffer = s.buffer ∨ s.sync.hold i = .inside)
    (hclosing : p.closing = true → s'.partClosed = true) : Moves s i p s' := by
  refine ⟨hpc, ?_, ?_, ?_, ?_, hleaves, hbuffer, hclosing⟩
  · intro j k hj
    rwa [hsync] at hj
  · intro j hj
    rwa [hsync] at hj
  · intro j _
    rw [hsync]
  · intro k hk
    rw [hp k] at hk
    cases hk

/-- A step of the mutex or of a condition variable that sends nobody to the
list of a condition variable. -/
theorem Moves.of_step {l : Sync.Label ι Cv ι} {y : Sync.State ι Cv ι}
    (hs : Sync.step s.sync l = some y) (hquiet : ∀ j, l ≠ .registerCv j ∧ l ≠ .eval j false)
    (hlock : ∀ j, l = .lock j → j = i)
    (hwait : ∀ j k hasCond, l = .wait j k hasCond → j = i ∧ hasCond = true)
    (harrives : ∀ k, p.waits k = true → y.kind i = .cvAwaiter k true)
    (hleaves : ∀ k, (s.pc i).waits k = false) (hclosing : p.closing = true → s.partClosed = true) :
    Moves s i p ({ s with sync := y }.goto i p) := by
  refine ⟨rfl, ?_, ?_, ?_, harrives, ?_, .inl rfl, hclosing⟩
  · intro j k hj
    rcases Sync.step_parked hs hj with hold | ⟨rfl, -⟩
    · exact hold
    · exact absurd rfl (hquiet j).1
  · intro j hj
    rcases Sync.step_registering hs hj with hold | ⟨k, rfl⟩ | rfl
    · exact hold
    · cases (hwait j k false rfl).2
    · exact absurd rfl (hquiet j).2
  · intro j hj
    rcases Sync.step_kind (j := j) hs with heq | ⟨rfl, -⟩ | ⟨k, hasCond, rfl, -⟩
    · exact heq
    · exact absurd (hlock j rfl) hj
    · exact absurd (hwait j k hasCond rfl).1 hj
  · intro k hk
    rw [hleaves k] at hk
    cases hk

/-- The buffer stays, and nobody is owed anything. -/
theorem Effect.of_buffer (htakes : ∀ k, (s.pc i).takes k = false)
    (howes : ∀ k, (s.pc i).owes k = false) (hbuffer : s'.buffer = s.buffer) (k : Cv) :
    Effect cap s i p s' k :=
  .none (htakes k) (howes k) (by rw [hbuffer])

theorem Effect.store {v : T} (h : Inv cap s q) (hp : s.pc i = .sendStore v)
    (hbuffer : s'.buffer = s.buffer.put cap v) (k : Cv) : Effect cap s i .sendNotify s' k := by
  have hok := h.pcs i
  rw [hp] at hok
  have hroom : q.length < max cap 1 := by
    have hle := h.shared.holds.length_le
    have hne : q.length ≠ max cap 1 := by
      intro heq
      have hfull := h.shared.holds.full_iff.mpr heq
      rw [hok.2.1] at hfull
      cases hfull
    omega
  have hold := h.shared.holds.size_eq
  have hnew := (h.shared.holds.put (v := v) hok.2.1).size_eq
  rw [List.length_append, List.length_singleton] at hnew
  cases k with
  | producer =>
    refine .takes (by simp [hp, Pc.takes]) ?_
    simp only [avail, hbuffer, hnew, hold]
    omega
  | consumer =>
    refine .adds (by simp [hp, Pc.takes]) (by simp [hp, Pc.owes]) rfl ?_
    simp only [avail, hbuffer, hnew, hold]

theorem Effect.take (h : Inv cap s q) (hp : s.pc i = .recvTake)
    (hbuffer : s'.buffer = s.buffer.pop cap) (k : Cv) : Effect cap s i .recvNotify s' k := by
  have hok := h.pcs i
  rw [hp] at hok
  have hholds := h.shared.holds
  cases q with
  | nil =>
    have hempty := hholds.empty_iff.mpr rfl
    rw [hok.2] at hempty
    cases hempty
  | cons v q =>
    have hold := hholds.size_eq
    have hnew := hholds.pop.2.size_eq
    have hle := hholds.length_le
    rw [List.length_cons] at hold hle
    cases k with
    | consumer =>
      refine .takes (by simp [hp, Pc.takes]) ?_
      simp only [avail, hbuffer, hnew, hold]
    | producer =>
      refine .adds (by simp [hp, Pc.takes]) (by simp [hp, Pc.owes]) rfl ?_
      simp only [avail, hbuffer, hnew, hold]
      omega

/-- A position at which a call takes nothing, owes nothing and does not wait. -/
def Pc.Passes (p : Pc T) : Prop :=
  ∀ k, p.waits k = false ∧ p.takes k = false ∧ p.owes k = false

/-- Such a step leaves the mutex and the buffer alone. -/
theorem Pc.Passes.of_sync (h : (s.pc i).Passes) (hsync : s'.sync = s.sync)
    (hpc : s'.pc = Function.update s.pc i p) (hp : ∀ k, p.waits k = false)
    (hbuffer : s'.buffer = s.buffer) (hclosing : p.closing = true → s'.partClosed = true) :
    Moves s i p s' ∧ ∀ k, Effect cap s i p s' k := by
  refine ⟨.of_sync hsync hpc hp (fun k hk => ?_) (.inl hbuffer) hclosing,
    .of_buffer (fun k => (h k).2.1) (fun k => (h k).2.2) hbuffer⟩
  rw [(h k).1] at hk
  cases hk

/-- Such a step is one of the mutex or of a condition variable. -/
theorem Pc.Passes.of_step {l : Sync.Label ι Cv ι} {y : Sync.State ι Cv ι} (h : (s.pc i).Passes)
    (hs : Sync.step s.sync l = some y) (hquiet : ∀ j, l ≠ .registerCv j ∧ l ≠ .eval j false)
    (hlock : ∀ j, l = .lock j → j = i)
    (hwait : ∀ j k hasCond, l = .wait j k hasCond → j = i ∧ hasCond = true)
    (harrives : ∀ k, p.waits k = true → y.kind i = .cvAwaiter k true)
    (hclosing : p.closing = true → s.partClosed = true) :
    Moves s i p ({ s with sync := y }.goto i p) ∧
      ∀ k, Effect cap s i p ({ s with sync := y }.goto i p) k :=
  ⟨.of_step hs hquiet hlock hwait harrives (fun k => (h k).1) hclosing,
    .of_buffer (fun k => (h k).2.1) (fun k => (h k).2.2) rfl⟩

/-- Every step of a call, outside of the awaiters. -/
theorem client_moves (h : Inv cap s q) (hplaces : Places cap s)
    (hs : clientStep cap s i (s.pc i) = some s') :
    ∃ p, Moves s i p s' ∧ ∀ k, Effect cap s i p s' k := by
  have hok := h.pcs i
  have hclosing := hplaces.closing i
  cases hp : s.pc i with
  | idle =>
    rw [hp] at hs
    cases hs
  | sendStart | recvStart =>
    have hpass : (s.pc i).Passes := by simp [Pc.Passes, hp, Pc.waits, Pc.takes, Pc.owes]
    simp only [clientStep, hp] at hs
    split_ifs at hs with hclosed
    · cases hs
      exact ⟨.idle, hpass.of_sync rfl rfl (fun _ => rfl) rfl (by simp [Pc.closing])⟩
    · obtain ⟨u, hu, rfl⟩ := Option.map_eq_some_iff.mp hs
      obtain ⟨y, hy, rfl⟩ := onSync_eq_some.mp hu
      exact ⟨_, hpass.of_step hy (by simp) (by simp) (by simp) (by simp [Pc.waits])
        (by simp [Pc.closing])⟩
  | sendLock | recvLock =>
    have hpass : (s.pc i).Passes := by simp [Pc.Passes, hp, Pc.waits, Pc.takes, Pc.owes]
    simp only [clientStep, hp] at hs
    obtain ⟨u, hu, rfl⟩ := Option.map_eq_some_iff.mp hs
    obtain ⟨y, hy, rfl⟩ := onSync_eq_some.mp hu
    obtain ⟨_, ⟨⟩⟩ := Option.ite_none_right_eq_some.mp hy
    refine ⟨_, hpass.of_step hy (by simp) (by simp) (by simp) (fun k hk => ?_)
      (by simp [Pc.closing])⟩
    rw [of_decide_eq_true hk]
    exact Function.update_self ..
  | sendWait | recvWait =>
    simp only [clientStep, hp] at hs
    obtain ⟨hin, hs⟩ := Option.ite_none_right_eq_some.mp hs
    split_ifs at hs with hclosed
    · cases hs
      refine ⟨_, .of_sync rfl rfl (fun _ => rfl) (fun k _ => ⟨hin, fun hopen => ?_⟩) (.inl rfl)
        (by simp [Pc.closing]), .of_buffer (by simp [hp, Pc.takes]) (by simp [hp, Pc.owes]) rfl⟩
      simp [hopen] at hclosed
    · cases hs
      refine ⟨_, .of_sync rfl rfl (fun _ => rfl) (fun k hk => ⟨hin, fun _ => ?_⟩) (.inl rfl)
        (by simp [Pc.closing]), .of_buffer (by simp [hp, Pc.takes]) (by simp [hp, Pc.owes]) rfl⟩
      rw [hp] at hk
      exact hk
  | sendStore v =>
    simp only [clientStep, hp, Option.some.injEq] at hs
    subst hs
    rw [hp] at hok
    exact ⟨.sendNotify, .of_sync rfl rfl (fun _ => rfl) (by simp [hp, Pc.waits]) (.inr hok.1)
      (by simp [Pc.closing]), Effect.store h hp rfl⟩
  | recvTake =>
    simp only [clientStep, hp, Option.some.injEq] at hs
    subst hs
    rw [hp] at hok
    exact ⟨.recvNotify, .of_sync rfl rfl (fun _ => rfl) (by simp [hp, Pc.waits]) (.inr hok.1)
      (by simp [Pc.closing]), Effect.take h hp rfl⟩
  | sendNotify | recvNotify =>
    simp only [clientStep, hp] at hs
    obtain ⟨u, hu, rfl⟩ := Option.map_eq_some_iff.mp hs
    obtain ⟨y, hy, rfl⟩ := onSync_eq_some.mp hu
    refine ⟨.unlock, .of_step hy (by simp) (by simp) (by simp) (by simp [Pc.waits])
      (by simp [hp, Pc.waits]) (by simp [Pc.closing]), fun k => ?_⟩
    cases hy
    cases k with
    | producer | consumer =>
      first
      | exact .notifies (by simp [hp, Pc.takes]) (by simp [hp, Pc.owes]) rfl rfl
      | exact .none (by simp [hp, Pc.takes]) (by simp [hp, Pc.owes]) rfl
  | recvComplete | closeStore =>
    have hpass : (s.pc i).Passes := by simp [Pc.Passes, hp, Pc.waits, Pc.takes, Pc.owes]
    simp only [clientStep, hp, Option.some.injEq] at hs
    subst hs
    exact ⟨_, hpass.of_sync rfl rfl (fun _ => rfl) rfl fun _ => rfl⟩
  | unlock =>
    have hpass : (s.pc i).Passes := by simp [Pc.Passes, hp, Pc.waits, Pc.takes, Pc.owes]
    simp only [clientStep, hp] at hs
    obtain ⟨u, hu, rfl⟩ := Option.map_eq_some_iff.mp hs
    obtain ⟨y, hy, rfl⟩ := onSync_eq_some.mp hu
    exact ⟨.idle, hpass.of_step hy (by simp) (by simp) (by simp) (by simp [Pc.waits])
      (by simp [Pc.closing])⟩
  | closeProducer | closeConsumer =>
    have hpass : (s.pc i).Passes := by simp [Pc.Passes, hp, Pc.waits, Pc.takes, Pc.owes]
    simp only [clientStep, hp] at hs
    rw [hp] at hclosing
    obtain ⟨u, hu, rfl⟩ := Option.map_eq_some_iff.mp hs
    obtain ⟨y, hy, rfl⟩ := onSync_eq_some.mp hu
    exact ⟨_, hpass.of_step hy (by simp) (by simp) (by simp) (by simp [Pc.waits])
      fun _ => hclosing rfl⟩
  | closeProducerLoop | closeConsumerLoop =>
    have hpass : (s.pc i).Passes := by simp [Pc.Passes, hp, Pc.waits, Pc.takes, Pc.owes]
    simp only [clientStep, hp] at hs
    rw [hp] at hclosing
    split_ifs at hs
    · cases hs
      exact ⟨_, hpass.of_sync rfl rfl (fun _ => rfl) rfl fun _ => hclosing rfl⟩
    · obtain ⟨y, hy, rfl⟩ := onSync_eq_some.mp hs
      have hmoves : Moves s i (s.pc i) ({ s with sync := y }.goto i (s.pc i)) ∧
          ∀ k, Effect cap s i (s.pc i) ({ s with sync := y }.goto i (s.pc i)) k :=
        hpass.of_step hy (by simp) (by simp) (by simp) (by simp [hp, Pc.waits])
          fun _ => hclosing rfl
      rw [State.goto, Function.update_eq_self] at hmoves
      exact ⟨s.pc i, hmoves⟩

omit [DecidableEq ι] in
/-- A coroutine that is parked or on its way to the list is in its wait and
does not run. -/
theorem Places.not_moving (h : Places cap s) (hg : Sync.Good s.sync)
    (hleaves : ∀ k, (s.pc i).waits k = true → s.sync.hold i = .inside) :
    (∀ k, s.sync.loc i ≠ .parked k) ∧ s.sync.hold i ≠ .registerCv := by
  refine ⟨fun k hk => ?_, fun hreg => ?_⟩
  · have hin := hleaves k (h.parked i k hk)
    have hnone := hg.loc_eq_none (i := i) (by rw [hin]; trivial)
    rw [hk] at hnone
    cases hnone
  · obtain ⟨k, hk, _⟩ := h.registering i hreg
    rw [hleaves k hk] at hreg
    cases hreg

theorem Places.move (h : Places cap s) (hg : Sync.Good s.sync) (hm : Moves s i p s')
    (hclosed : s.partClosed = true → s'.partClosed = true) : Places cap s' := by
  obtain ⟨hnot_parked, hnot_reg⟩ := h.not_moving hg fun k hk => (hm.leaves k hk).1
  have hpc : ∀ j, j ≠ i → s'.pc j = s.pc j := by
    intro j hj
    rw [hm.pc, Function.update_of_ne hj]
  have hself : s'.pc i = p := by
    rw [hm.pc, Function.update_self]
  refine ⟨fun j k hj => ?_, fun j k hj => ?_, fun j hj => ?_, fun j hj => ?_⟩
  · by_cases hji : j = i
    · subst hji
      rw [hself] at hj
      exact hm.arrives k hj
    · rw [hpc j hji] at hj
      rw [hm.kind j hji]
      exact h.kinds j k hj
  · have hold := hm.parked j k hj
    have hji : j ≠ i := by
      rintro rfl
      exact hnot_parked k hold
    rw [hpc j hji]
    exact h.parked j k hold
  · have hold := hm.registering j hj
    have hji : j ≠ i := by
      rintro rfl
      exact hnot_reg hold
    obtain ⟨k, hk, hzero⟩ := h.registering j hold
    refine ⟨k, by rwa [hpc j hji], ?_⟩
    rcases hm.buffer with heq | hin
    · rwa [heq]
    · -- Who writes to the buffer has the lock.
      exact absurd (hg.unique (by simp [hold]) (by simp [hin])) hji
  · by_cases hji : j = i
    · subst hji
      rw [hself] at hj
      exact hm.closing hj
    · rw [hpc j hji] at hj
      exact hclosed (h.closing j hj)

omit [DecidableEq ι] in
/-- What a predicate that is false says. -/
theorem cond_false (h : s.buffer.Holds cap q) (hcond : s.cond cap i = some false) :
    s.partClosed = false ∧ ∃ k, (s.pc i).waits k = true ∧ avail cap s.buffer k = 0 := by
  have hsize := h.size_eq
  unfold State.cond at hcond
  split at hcond
  · next v hp =>
    simp only [Option.some.injEq, Bool.or_eq_false_iff, Bool.not_eq_false'] at hcond
    refine ⟨hcond.2, .producer, by simp [hp, Pc.waits], ?_⟩
    have hlength := h.full_iff.mp hcond.1
    simp only [avail]
    omega
  · next hp =>
    simp only [Option.some.injEq, Bool.or_eq_false_iff, Bool.not_eq_false'] at hcond
    refine ⟨hcond.2, .consumer, by simp [hp, Pc.waits], ?_⟩
    have hnil := h.empty_iff.mp hcond.1
    simp only [avail, hsize, hnil, List.length_nil]
  · cases hcond

/-- The steps of an awaiter, and of `unlock`. -/
def IsAwaiter : Sync.Label ι Cv ι → Prop
  | .registerLock .. | .enter _ | .eval .. | .registerCv _ | .unlock _ | .reuse .. => True
  | _ => False

theorem Places.awaiter {l : Sync.Label ι Cv ι} {y : Sync.State ι Cv ι} (h : Places cap s)
    (hs : Sync.step s.sync l = some y) (hl : IsAwaiter l)
    (heval : ∀ j, l = .eval j false → ∃ k, (s.pc j).waits k = true ∧ avail cap s.buffer k = 0) :
    Places cap { s with sync := y } := by
  refine ⟨fun j k hj => ?_, fun j k hj => ?_, fun j hj => ?_, h.closing⟩
  · rcases Sync.step_kind (j := j) hs with heq | ⟨rfl, -⟩ | ⟨k', hasCond, rfl, -⟩
    · exact heq.trans (h.kinds j k hj)
    · exact hl.elim
    · exact hl.elim
  · rcases Sync.step_parked hs hj with hold | ⟨-, hreg, hasCond, hkind⟩
    · exact h.parked j k hold
    · -- The condition variable is the one of its wait.
      obtain ⟨k', hk', -⟩ := h.registering j hreg
      have heq := h.kinds j k' hk'
      rw [hkind] at heq
      cases heq
      exact hk'
  · rcases Sync.step_registering hs hj with hold | ⟨k, rfl⟩ | rfl
    · exact h.registering j hold
    · exact hl.elim
    · exact heval j rfl

/-- A step of a channel: a call moves on, a waiter finds its predicate false,
or an awaiter or `unlock` takes another step. -/
inductive Turn (cap : Nat) (s : State ι T) (a : Label ι T) (s' : State ι T) : Prop
  | call (i : ι) (p : Pc T) (hmoves : Moves s i p s') (heffect : ∀ k, Effect cap s i p s' k)
      (hnote : ∀ woken k, noteWoken cap s a woken k = noteWoken cap s (.client i) woken k)
  | parks (i : ι) (y : Sync.State ι Cv ι) (hy : Sync.step s.sync (.eval i false) = some y)
      (hs' : { s with sync := y } = s') (ha : a = .eval i) (hcond : s.cond cap i = some false)
  | passive (l : Sync.Label ι Cv ι) (y : Sync.State ι Cv ι) (hy : Sync.step s.sync l = some y)
      (hs' : { s with sync := y } = s') (hl : IsAwaiter l) (heval : ∀ j, l ≠ .eval j false)
      (hnote : ∀ woken k, noteWoken cap s a woken k = woken k)

variable {a : Label ι T}

theorem step_turn (h : Inv cap s q) (hplaces : Places cap s) (hs : step cap s a = some s') :
    Turn cap s a s' := by
  have hcall : ∀ i p, s.canCall i → s.goto i p = s' → (∀ k, p.waits k = false) →
      p.closing = false → (∀ woken k, noteWoken cap s a woken k = woken k) → Turn cap s a s' := by
    rintro i p ⟨hidle, -⟩ rfl hwaits hclosing hnote
    have hpc : s.pc i = .idle := by
      cases hp : s.pc i <;> simp [hp, Pc.isIdle] at hidle
      rfl
    refine .call i p (.of_sync rfl rfl hwaits (by simp [hpc, Pc.waits]) (.inl rfl) ?_)
      (.of_buffer (by simp [hpc, Pc.takes]) (by simp [hpc, Pc.owes]) rfl) fun woken k => ?_
    · intro hp
      rw [hclosing] at hp
      cases hp
    · rw [hnote]
      simp [noteWoken, hpc, Pc.takes, Pc.owes]
  have hpassive : ∀ l, s.onSync l = some s' → IsAwaiter l → (∀ j, l ≠ .eval j false) →
      (∀ woken k, noteWoken cap s a woken k = woken k) → Turn cap s a s' := by
    intro l hon hl heval hnote
    obtain ⟨y, hy, hs'⟩ := onSync_eq_some.mp hon
    exact .passive l y hy hs' hl heval hnote
  cases a with
  | send i | recv i | close i =>
    obtain ⟨hcan, hs⟩ := Option.ite_none_right_eq_some.mp hs
    exact hcall i _ hcan (Option.some.inj hs) (fun _ => rfl) rfl fun _ _ => rfl
  | client i =>
    obtain ⟨p, hmoves, heffect⟩ := client_moves h hplaces hs
    exact .call i p hmoves heffect fun _ _ => rfl
  | eval i =>
    obtain ⟨value, hcond, hs⟩ := Option.bind_eq_some_iff.mp hs
    cases value with
    | false =>
      obtain ⟨y, hy, hs'⟩ := onSync_eq_some.mp hs
      exact .parks i y hy hs' rfl hcond
    | true => exact hpassive _ hs trivial (by simp) (by simp [noteWoken, hcond])
  | registerLock | enter | registerCv | unlock | reuse =>
    exact hpassive _ hs trivial (by simp) fun _ _ => rfl

theorem Places.step (h : Places cap s) (hinv : Inv cap s q) (hg : Sync.Good s.sync)
    (hs : Channel.step cap s a = some s') : Places cap s' := by
  rcases step_turn hinv h hs with
    ⟨i, p, hmoves, -, -⟩ | ⟨i, y, hy, rfl, -, hcond⟩ | ⟨l, y, hy, rfl, hl, heval, -⟩
  · exact h.move hg hmoves fun hclosed => partClosed_step hclosed hs
  · apply h.awaiter hy trivial
    intro j hj
    cases hj
    exact (cond_false hinv.shared.holds hcond).2
  · exact h.awaiter hy hl fun j hj => absurd hj (heval j)

theorem places_of_reachable (h : (machine ι T cap).Reachable s) : Places cap s := by
  refine h.invariant (I := Places cap) (fun s h0 => ?_) fun s a s' hr hI hs => ?_
  · refine ⟨fun i k hi => ?_, fun i k hi => ?_, fun i hi => ?_, fun i hi => ?_⟩
    · rw [h0.pc i] at hi
      cases hi
    · rw [h0.sync.loc i] at hi
      cases hi
    · rw [h0.sync.hold i] at hi
      cases hi
    · rw [h0.pc i] at hi
      cases hi
  · obtain ⟨q, hq⟩ := inv_of_reachable hr
    exact hI.step hq (sync_good hr) hs

/-! ## The count -/

structure Fair (cap : Nat) (s : State ι T) (woken : Cv → Finset ι) : Prop where
  inFlight : ∀ k, ∀ i ∈ woken k, ((s.pc i).waits k = true ∨ (s.pc i).takes k = true) ∧
    s.sync.loc i ≠ .parked k ∧ s.sync.hold i ≠ .registerCv
  bound : ∀ k, (∃ j, s.sync.loc j = .parked k) →
    avail cap s.buffer k ≤ (woken k).card ∨
    ∃ i, (s.pc i).owes k = true ∧ avail cap s.buffer k ≤ (woken k).card + 1

variable {woken : Cv → Finset ι}

/-- Positions that exclude each other. -/
theorem Pc.waits_unique {k k' : Cv} (h : p.waits k = true)
    (h' : p.waits k' = true ∨ p.takes k' = true) : k' = k := by
  cases p <;> simp_all [Pc.waits, Pc.takes]

section

omit [DecidableEq ι]

theorem owes_inside (h : Inv cap s q) (hi : (s.pc i).owes k = true) :
    s.sync.hold i = .inside := by
  have hok := h.pcs i
  cases hp : s.pc i <;> simp_all [Pc.owes, PcOk]

theorem takes_inside (h : Inv cap s q) (hi : (s.pc i).takes k = true) :
    s.sync.hold i = .inside := by
  have hok := h.pcs i
  cases hp : s.pc i <;> simp_all [Pc.takes, PcOk]

/-- While somebody is parked, `notify_one` takes somebody. -/
theorem head_isSome {j : ι} (hg : Sync.Good s.sync) (hj : s.sync.loc j = .parked k) :
    ∃ x, s.sync.cvHead k = some x := by
  obtain ⟨r, hr⟩ := hg.refines
  have hmem := hr.mem_waiters.mpr hj
  have hchain := hr.cv_chain k
  cases hw : r.waiters k with
  | nil => simp [hw] at hmem
  | cons y ys =>
    rw [hw] at hchain
    exact ⟨y, hchain.1⟩

end

/-- A waiter that `notify_one` has taken is on its way to the lock. -/
theorem notified {x : ι} (hplaces : Places cap s) (hg : Sync.Good s.sync)
    (hx : s.sync.cvHead k = some x) (hm : Moves s i p s') (howes : (s.pc i).owes k = true)
    (hsync : s'.sync = Sync.notifyOne s.sync k) :
    (s'.pc x).waits k = true ∧ s'.sync.loc x ≠ .parked k ∧ s'.sync.hold x ≠ .registerCv := by
  have hparked := hg.cvHead_parked hx
  have hwaits := hplaces.parked x k hparked
  have hxi : x ≠ i := by
    rintro rfl
    cases hp : s.pc x <;> simp [hp, Pc.owes, Pc.waits] at howes hwaits
  refine ⟨?_, ?_, fun hreg => ?_⟩
  · rw [hm.pc, Function.update_of_ne hxi]
    exact hwaits
  · rw [hsync]
    simp [Sync.notifyOne, hx, Sync.State.setLoc]
  · have hnone := hg.loc_eq_none (i := x) (by rw [hm.registering x hreg]; trivial)
    rw [hparked] at hnone
    cases hnone

theorem Fair.inFlight_call (h : Fair cap s woken) (hplaces : Places cap s)
    (hg : Sync.Good s.sync) (hopen : s.partClosed = false) (hm : Moves s i p s')
    (he : Effect cap s i p s' k) {j : ι} (hj : j ∈ noteWoken cap s (.client i) woken k) :
    ((s'.pc j).waits k = true ∨ (s'.pc j).takes k = true) ∧
      s'.sync.loc j ≠ .parked k ∧ s'.sync.hold j ≠ .registerCv := by
  -- Somebody who was woken before, and does not take anything now.
  have hkeep : j ∈ woken k → (j = i → (s.pc i).takes k = false) →
      ((s'.pc j).waits k = true ∨ (s'.pc j).takes k = true) ∧
        s'.sync.loc j ≠ .parked k ∧ s'.sync.hold j ≠ .registerCv := by
    intro hmem htakes
    obtain ⟨hpc, hloc, hhold⟩ := h.inFlight k j hmem
    refine ⟨?_, fun hp => hloc (hm.parked j k hp), fun hr => hhold (hm.registering j hr)⟩
    rw [hm.pc]
    by_cases hji : j = i
    · subst hji
      rw [Function.update_self]
      rcases hpc with hwaits | htake
      · exact .inr ((hm.leaves k hwaits).2 hopen)
      · rw [htakes rfl] at htake
        cases htake
    · rw [Function.update_of_ne hji]
      exact hpc
  cases he with
  | takes hpc _ =>
    simp only [noteWoken, hpc, if_true, Finset.mem_erase] at hj
    exact hkeep hj.2 fun hji => absurd hji hj.1
  | adds htakes howes _ _ | none htakes howes _ =>
    simp only [noteWoken, htakes, howes, Bool.false_eq_true, if_false] at hj
    exact hkeep hj fun _ => htakes
  | notifies htakes howes _ hsync =>
    simp only [noteWoken, htakes, howes, Bool.false_eq_true, if_false, if_true,
      Finset.mem_union, Option.mem_toFinset] at hj
    rcases hj with hx | hold
    · obtain ⟨hwaits, hrest⟩ := notified hplaces hg hx hm howes hsync
      exact ⟨.inl hwaits, hrest⟩
    · exact hkeep hold fun _ => htakes

theorem Fair.bound_call (h : Fair cap s woken) (hinv : Inv cap s q) (hg : Sync.Good s.sync)
    (hm : Moves s i p s') (he : Effect cap s i p s' k)
    (hparked : ∃ j, s'.sync.loc j = .parked k) :
    avail cap s'.buffer k ≤ (noteWoken cap s (.client i) woken k).card ∨
    ∃ j, (s'.pc j).owes k = true ∧
      avail cap s'.buffer k ≤ (noteWoken cap s (.client i) woken k).card + 1 := by
  obtain ⟨j, hj⟩ := hparked
  have hold := hm.parked j k hj
  have hbound := h.bound k ⟨j, hold⟩
  -- Whoever runs with the lock is the only one who can owe a notification.
  have hsole : s.sync.hold i = .inside → (s.pc i).owes k = false →
      avail cap s.buffer k ≤ (woken k).card := by
    intro hin hnot
    rcases hbound with hle | ⟨x, howes, -⟩
    · exact hle
    · have hxi : x = i := hg.unique (by simp [owes_inside hinv howes]) (by simp [hin])
      rw [hxi, hnot] at howes
      cases howes
  cases he with
  | takes hpc havail =>
    have hnot : (s.pc i).owes k = false := by
      cases hp : s.pc i <;> simp [hp, Pc.takes, Pc.owes] at hpc ⊢
    have hle := hsole (takes_inside hinv hpc) hnot
    have hcard := Finset.pred_card_le_card_erase (s := woken k) (a := i)
    left
    simp only [noteWoken, hpc, if_true]
    omega
  | adds htakes howes hpc havail =>
    have hin : s.sync.hold i = .inside := by
      rcases hm.buffer with heq | hin
      · rw [heq] at havail
        omega
      · exact hin
    have hle := hsole hin howes
    refine .inr ⟨i, by rw [hm.pc, Function.update_self]; exact hpc, ?_⟩
    simp only [noteWoken, htakes, howes, Bool.false_eq_true, if_false]
    omega
  | notifies htakes howes havail hsync =>
    obtain ⟨x, hx⟩ := head_isSome hg hold
    have hfresh : x ∉ woken k := fun hmem => (h.inFlight k x hmem).2.1 (hg.cvHead_parked hx)
    have hcard : (noteWoken cap s (.client i) woken k).card = (woken k).card + 1 := by
      simp only [noteWoken, htakes, howes, Bool.false_eq_true, if_false, if_true, hx,
        Option.toFinset_some, Finset.singleton_union]
      exact Finset.card_insert_of_notMem hfresh
    left
    rw [hcard, havail]
    rcases hbound with hle | ⟨_, _, hle⟩ <;> omega
  | none htakes howes havail =>
    simp only [noteWoken, htakes, howes, Bool.false_eq_true, if_false, havail]
    rcases hbound with hle | ⟨x, hx, hle⟩
    · exact .inl hle
    · refine .inr ⟨x, ?_, hle⟩
      have hxi : x ≠ i := by
        rintro rfl
        rw [howes] at hx
        cases hx
      rw [hm.pc, Function.update_of_ne hxi]
      exact hx

/-- Somebody who parks has found nothing, and nothing has come since. -/
theorem Fair.bound_awaiter {l : Sync.Label ι Cv ι} {y : Sync.State ι Cv ι}
    (h : Fair cap s woken) (hplaces : Places cap s) (hs : Sync.step s.sync l = some y)
    (hparked : ∃ j, y.loc j = .parked k) :
    avail cap s.buffer k ≤ (woken k).card ∨
    ∃ i, (s.pc i).owes k = true ∧ avail cap s.buffer k ≤ (woken k).card + 1 := by
  obtain ⟨j, hj⟩ := hparked
  rcases Sync.step_parked hs hj with hold | ⟨-, hreg, hasCond, hkind⟩
  · exact h.bound k ⟨j, hold⟩
  · obtain ⟨k', hk', hzero⟩ := hplaces.registering j hreg
    have heq := hplaces.kinds j k' hk'
    rw [hkind] at heq
    cases heq
    rw [hzero]
    exact .inl (Nat.zero_le _)

theorem Fair.inFlight_awaiter {l : Sync.Label ι Cv ι} {y : Sync.State ι Cv ι} {j : ι}
    (h : Fair cap s woken) (hs : Sync.step s.sync l = some y) (hl : IsAwaiter l)
    (hmem : j ∈ woken k) (heval : l ≠ .eval j false) :
    ((s.pc j).waits k = true ∨ (s.pc j).takes k = true) ∧
      y.loc j ≠ .parked k ∧ y.hold j ≠ .registerCv := by
  obtain ⟨hpc, hloc, hhold⟩ := h.inFlight k j hmem
  refine ⟨hpc, fun hp => ?_, fun hr => ?_⟩
  · rcases Sync.step_parked hs hp with hold | ⟨-, hreg, -⟩
    · exact hloc hold
    · exact hhold hreg
  · rcases Sync.step_registering hs hr with hold | ⟨k', rfl⟩ | rfl
    · exact hhold hold
    · exact hl
    · exact heval rfl

theorem Fair.parks {y : Sync.State ι Cv ι} (h : Fair cap s woken) (hplaces : Places cap s)
    (hinv : Inv cap s q) (hs : Sync.step s.sync (.eval i false) = some y)
    (hcond : s.cond cap i = some false) :
    Fair cap { s with sync := y } (noteWoken cap s (.eval i) woken) := by
  have hnote : ∀ k, noteWoken cap s (.eval i) woken k = (woken k).erase i := by
    intro k
    simp [noteWoken, hcond]
  obtain ⟨-, k₀, hwaits, hzero⟩ := cond_false hinv.shared.holds hcond
  refine ⟨fun k j hj => ?_, fun k hparked => ?_⟩
  · rw [hnote, Finset.mem_erase] at hj
    refine h.inFlight_awaiter hs trivial hj.2 fun heq => hj.1 ?_
    cases heq
    rfl
  · rw [hnote]
    by_cases hk : k = k₀
    · subst hk
      exact .inl (le_of_eq_of_le hzero (Nat.zero_le _))
    · have hfresh : i ∉ woken k := fun hmem =>
        hk (Pc.waits_unique hwaits (h.inFlight k i hmem).1)
      rw [Finset.erase_eq_of_notMem hfresh]
      exact h.bound_awaiter hplaces hs hparked

theorem Fair.step (h : Fair cap s woken) (hplaces : Places cap s) (hinv : Inv cap s q)
    (hg : Sync.Good s.sync) (hopen : s.partClosed = false)
    (hs : Channel.step cap s a = some s') : Fair cap s' (noteWoken cap s a woken) := by
  rcases step_turn hinv hplaces hs with
    ⟨i, p, hmoves, heffect, hnote⟩ | ⟨i, y, hy, rfl, rfl, hcond⟩ |
    ⟨l, y, hy, rfl, hl, heval, hnote⟩
  · refine ⟨fun k j hj => ?_, fun k hparked => ?_⟩
    · rw [hnote] at hj
      exact h.inFlight_call hplaces hg hopen hmoves (heffect k) hj
    · rw [hnote]
      exact h.bound_call hinv hg hmoves (heffect k) hparked
  · exact h.parks hplaces hinv hy hcond
  · refine ⟨fun k j hj => ?_, fun k hparked => ?_⟩
    · rw [hnote] at hj
      exact h.inFlight_awaiter hy hl hj (heval j)
    · rw [hnote]
      exact h.bound_awaiter hplaces hy hparked

end Steps

theorem fair_of_run {cap : Nat} {s₀ s : State ι T} {as : List (Label ι T)} (h₀ : Init cap s₀)
    (hrun : (machine ι T cap).run s₀ as = some s) (hopen : s.partClosed = false) :
    Fair cap s ((machine ι T cap).history (noteWoken cap) s₀ (fun _ => ∅) as) := by
  refine Machine.history_invariant (M := machine ι T cap) (f := noteWoken cap)
    (I := fun s woken => s.partClosed = false → Fair cap s woken)
    (fun s a s' woken hr hI hs hopen' => ?_) (.init h₀) (fun _ => ?_) hrun hopen
  · obtain ⟨q, hq⟩ := inv_of_reachable hr
    have hbefore : s.partClosed = false := by
      cases hc : s.partClosed with
      | false => rfl
      | true =>
        rw [partClosed_step hc hs] at hopen'
        cases hopen'
    exact (hI hbefore).step (places_of_reachable hr) hq (sync_good hr) hbefore hs
  · refine ⟨fun k i hi => absurd hi (Finset.notMem_empty i), fun k ⟨j, hj⟩ => ?_⟩
    rw [h₀.sync.loc j] at hj
    cases hj

/-- What an open channel guarantees to the waiters of `k`, of whom `woken` are
on their way. -/
structure Served (cap : Nat) (s : State ι T) (woken : Finset ι) (k : Cv) : Prop where
  /-- Whoever counts as woken is in its wait without being parked, or about
  to take. -/
  inFlight : ∀ i ∈ woken, ((s.pc i).waits k = true ∨ (s.pc i).takes k = true) ∧
    s.sync.loc i ≠ .parked k
  /-- While somebody is parked, there is no more to take than parties were
  woken for, or the holder of the lock has added one and has not called
  `notify_one` yet. -/
  bound : (∃ j, s.sync.loc j = .parked k) → avail cap s.buffer k ≤ woken.card ∨
    ∃ i, (s.pc i).owes k = true ∧ s.sync.hold i = .inside ∧
      avail cap s.buffer k ≤ woken.card + 1
  /-- With the mutex unlocked and nobody on the way there is nothing to
  take. -/
  quiet : (∃ j, s.sync.loc j = .parked k) → s.sync.state = .nolocked → woken = ∅ →
    avail cap s.buffer k = 0

/-- A channel that is not closed serves its receivers and its senders, in
every state of every run. -/
theorem open_channel_serves (cap : Nat) (s₀ s : State ι T) (as : List (Label ι T))
    (h₀ : Init cap s₀) (hrun : (machine ι T cap).run s₀ as = some s)
    (hopen : s.partClosed = false) (k : Cv) :
    Served cap s ((machine ι T cap).history (noteWoken cap) s₀ (fun _ => ∅) as k) k := by
  have hreach : (machine ι T cap).Reachable s := Machine.Reachable.run (.init h₀) hrun
  obtain ⟨q, hq⟩ := inv_of_reachable hreach
  have hfair := fair_of_run h₀ hrun hopen
  have hbound : (∃ j, s.sync.loc j = .parked k) → _ := hfair.bound k
  refine ⟨fun i hi => ?_, fun hparked => ?_, fun hparked hfree hnone => ?_⟩
  · obtain ⟨hpc, hloc, -⟩ := hfair.inFlight k i hi
    exact ⟨hpc, hloc⟩
  · rcases hbound hparked with hle | ⟨i, howes, hle⟩
    · exact .inl hle
    · exact .inr ⟨i, howes, owes_inside hq howes, hle⟩
  · rcases hbound hparked with hle | ⟨i, howes, -⟩
    · rw [hnone, Finset.card_empty] at hle
      exact Nat.le_zero.mp hle
    · -- The one who owes a notification has the lock.
      have hin := owes_inside hq howes
      rw [(sync_good hreach).free_iff.mp hfree i] at hin
      cases hin

/-- Receivers 0 and 1 park on an empty channel. -/
def twoReceivers : List (Label (Fin 3) Nat) :=
  [.recv 0, .client 0, .registerLock 0 false, .registerLock 0 false, .enter 0, .client 0, .eval 0,
    .registerCv 0, .unlock 0, .unlock 0,
    .recv 1, .client 1, .registerLock 1 false, .registerLock 1 false, .enter 1, .client 1, .eval 1,
    .registerCv 1, .unlock 1, .unlock 1]

/-- Coroutine 2 sends a value and is about to call `notify_one`. -/
def sendsValue : List (Label (Fin 3) Nat) :=
  [.send 2 5, .client 2, .registerLock 2 false, .registerLock 2 false, .enter 2, .client 2,
    .eval 2, .client 2, .client 2]

/-- The sender has notified.  There is one value, one receiver is on its way
and the other one is parked. -/
theorem open_channel_serves_second_parked : ∃ s, (machine (Fin 3) Nat 2).run
      (newState (.masked 0 0 fun _ => 0)) (twoReceivers ++ sendsValue ++ [.client 2]) = some s ∧
    s.sync.loc 1 = .parked .consumer ∧ avail 2 s.buffer .consumer = 1 ∧
    Served 2 s {0} .consumer := by
  have hrun : ((machine (Fin 3) Nat 2).run (newState (.masked 0 0 fun _ => 0))
      (twoReceivers ++ sendsValue ++ [.client 2])).map (fun s =>
        decide (s.sync.loc 1 = .parked .consumer ∧ avail 2 s.buffer .consumer = 1 ∧
          s.partClosed = false)) = some true := by
    decide
  have hwoken : (machine (Fin 3) Nat 2).history (noteWoken 2) (newState (.masked 0 0 fun _ => 0))
      (fun _ => ∅) (twoReceivers ++ sendsValue ++ [.client 2]) .consumer = {0} := by
    decide
  have hinit : Init 2 (newState (.masked 0 0 fun _ => 0) : State (Fin 3) Nat) :=
    init_newState ⟨⟨1, by decide, rfl⟩, rfl, rfl⟩
  obtain ⟨s, hs, htest⟩ := Option.map_eq_some_iff.mp hrun
  obtain ⟨hparked, hone, hopen⟩ := of_decide_eq_true htest
  refine ⟨s, hs, hparked, hone, ?_⟩
  have hserved := open_channel_serves 2 _ s _ hinit hs hopen .consumer
  rwa [hwoken] at hserved

/-- Between the store and the `notify_one` of a sender there is a value, a
receiver is parked and nobody was woken. -/
theorem stored_before_notified : ∃ (s₀ s : State (Fin 3) Nat) (as : List (Label (Fin 3) Nat)),
    Init 2 s₀ ∧ (machine (Fin 3) Nat 2).run s₀ as = some s ∧ s.partClosed = false ∧
    (∃ j, s.sync.loc j = .parked .consumer) ∧ ¬ avail 2 s.buffer .consumer ≤
      ((machine (Fin 3) Nat 2).history (noteWoken 2) s₀ (fun _ => ∅) as .consumer).card := by
  have hrun : ((machine (Fin 3) Nat 2).run (newState (.masked 0 0 fun _ => 0))
      (twoReceivers ++ sendsValue)).map (fun s =>
        decide (s.partClosed = false ∧ s.sync.loc 1 = .parked .consumer ∧
          avail 2 s.buffer .consumer = 1)) = some true := by
    decide
  have hwoken : (machine (Fin 3) Nat 2).history (noteWoken 2) (newState (.masked 0 0 fun _ => 0))
      (fun _ => ∅) (twoReceivers ++ sendsValue) .consumer = ∅ := by
    decide
  have hinit : Init 2 (newState (.masked 0 0 fun _ => 0) : State (Fin 3) Nat) :=
    init_newState ⟨⟨1, by decide, rfl⟩, rfl, rfl⟩
  obtain ⟨s, hs, htest⟩ := Option.map_eq_some_iff.mp hrun
  obtain ⟨hopen, hparked, hone⟩ := of_decide_eq_true htest
  refine ⟨_, s, _, hinit, hs, hopen, ⟨1, hparked⟩, ?_⟩
  rw [hwoken, hone, Finset.card_empty]
  omega

end SheepCoro.Channel
