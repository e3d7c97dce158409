import SheepCoro.Channel.Model
import SheepCoro.Sync.Frame

/-!
# Channels neither lose, duplicate nor reorder

The values that were sent are the values that were received followed by the
ones that the buffer holds (`Shared.conserved`), whichever template the
buffer is of.  A `recv` that gives up has seen the buffer empty and the
channel closed, with the lock, and from then on the channel stays closed, so
nothing is sent any more.

What a coroutine knows at a position of `send` or `recv` is `PcOk`.  It knows
something about the buffer only while it runs with the lock, so the steps of
the others do not matter to it.
-/

namespace SheepCoro.Channel

open Lib

/-- The values of the calls of `send` that returned `true`, in the order of
their critical sections. -/
def sent {T : Type} (log : List (Event T)) : List T :=
  log.filterMap fun
    | .sendTrue v => some v
    | _ => none

/-- The values that calls of `recv` returned, in the order of their critical
sections. -/
def received {T : Type} (log : List (Event T)) : List T :=
  log.filterMap fun
    | .recvSome v => some v
    | _ => none

variable {ι T : Type} [DecidableEq ι]

@[simp] theorem sent_append (xs ys : List (Event T)) : sent (xs ++ ys) = sent xs ++ sent ys :=
  List.filterMap_append ..

@[simp] theorem received_append (xs ys : List (Event T)) :
    received (xs ++ ys) = received xs ++ received ys :=
  List.filterMap_append ..

/-! ## The mutex below a channel -/

theorem sync_good {cap : Nat} {s : State ι T} (h : (machine ι T cap).Reachable s) :
    Sync.Good s.sync := by
  refine h.invariant (I := fun s => Sync.Good s.sync) (fun s h0 => ?_) ?_
  · exact Sync.Init.good (Init.sync h0)
  · intro s a s' _ hg hs
    rcases (step_frame hs).sync with heq | ⟨l, _, _, hl⟩
    · rw [heq]
      exact hg
    · exact hg.step hl

/-! ## The log -/

/-- After a `recv` has given up everything was received, and nothing is sent
or received any more. -/
def Final (log : List (Event T)) : Prop :=
  ∀ pre post, log = pre ++ .recvNull :: post →
    received pre = sent pre ∧ sent post = [] ∧ received post = []

/-- An outcome that moves a value comes before every `recv` that gives up. -/
theorem Final.of_not_mem {log : List (Event T)} {e : Event T} (h : .recvNull ∉ log)
    (he : e ≠ .recvNull) : Final (log ++ [e]) := by
  intro pre post heq
  have hmem : Event.recvNull ∈ log ++ [e] := by simp [heq]
  rcases List.mem_append.mp hmem with hm | hm
  · exact absurd hm h
  · exact absurd (List.mem_singleton.mp hm).symm he

/-- An outcome that moves no value. -/
theorem Final.snoc {log : List (Event T)} {e : Event T} (h : Final log) (hs : sent [e] = [])
    (hr : received [e] = []) (hall : e = .recvNull → received log = sent log) :
    Final (log ++ [e]) := by
  intro pre post heq
  rcases List.append_eq_append_iff.mp heq with ⟨as, hpre, has⟩ | ⟨bs, hlog, hbs⟩
  · -- The event of the decomposition is the new one.
    have hlen : as = [] ∧ e = .recvNull ∧ post = [] := by
      cases as with
      | nil =>
        simp only [List.nil_append, List.cons.injEq] at has
        exact ⟨rfl, has.1, has.2.symm⟩
      | cons a as =>
        simp at has
    obtain ⟨rfl, rfl, rfl⟩ := hlen
    rw [List.append_nil] at hpre
    rw [hpre]
    exact ⟨hall rfl, rfl, rfl⟩
  · cases bs with
    | nil =>
      simp only [List.nil_append, List.cons.injEq] at hbs
      rw [List.append_nil] at hlog
      obtain ⟨rfl, rfl⟩ := hbs
      rw [← hlog]
      exact ⟨hall rfl, rfl, rfl⟩
    | cons b bs =>
      simp only [List.cons_append, List.cons.injEq] at hbs
      obtain ⟨rfl, rfl⟩ := hbs
      obtain ⟨hpre, hsent, hrecv⟩ := h pre bs hlog
      simp [hpre, hsent, hrecv, hs, hr]

/-! ## The invariant -/

/-- The buffer, the close state and the log. -/
structure Shared (cap : Nat) (s : State ι T) (q : List T) : Prop where
  holds : s.buffer.Holds cap q
  conserved : sent s.log = received s.log ++ q
  ended : .recvNull ∈ s.log → q = [] ∧ s.partClosed = true
  complete : s.completeClosed = true → .recvNull ∈ s.log
  final : Final s.log

/-- What a coroutine knows at a position. -/
def PcOk (cap : Nat) (s : State ι T) (i : ι) : Pc T → Prop
  | .sendWait _ => (∃ k, s.sync.kind i = .cvAwaiter k true) ∧
      ((s.sync.hold i).Runs → s.buffer.full cap = false ∨ s.partClosed = true)
  | .recvWait => (∃ k, s.sync.kind i = .cvAwaiter k true) ∧
      ((s.sync.hold i).Runs → s.buffer.empty = false ∨ s.partClosed = true)
  | .sendStore _ => s.sync.hold i = .inside ∧ s.buffer.full cap = false ∧ .recvNull ∉ s.log
  | .recvTake => s.sync.hold i = .inside ∧ s.buffer.empty = false
  | .recvComplete => s.sync.hold i = .inside ∧ .recvNull ∈ s.log
  | .sendNotify | .recvNotify | .unlock => s.sync.hold i = .inside
  | _ => True

structure Inv (cap : Nat) (s : State ι T) (q : List T) : Prop where
  shared : Shared cap s q
  pcs : ∀ i, PcOk cap s i (s.pc i)

section Steps

variable {cap : Nat} {s s' : State ι T} {q : List T} {i : ι} {p : Pc T}

section

omit [DecidableEq ι]

/-- A coroutine that does not run with the lock knows nothing about the
buffer. -/
theorem PcOk.of_not_runs (h : PcOk cap s i p) (hr : ¬ (s.sync.hold i).Runs)
    (hhold : s'.sync.hold i = s.sync.hold i) (hkind : s'.sync.kind i = s.sync.kind i) :
    PcOk cap s' i p := by
  have hni : s.sync.hold i ≠ .inside := fun heq => hr (.inr heq)
  cases p with
  | sendWait v =>
    refine ⟨by rw [hkind]; exact h.1, fun hr' => absurd ?_ hr⟩
    rwa [hhold] at hr'
  | recvWait =>
    refine ⟨by rw [hkind]; exact h.1, fun hr' => absurd ?_ hr⟩
    rwa [hhold] at hr'
  | sendStore | recvTake | recvComplete => exact absurd h.1 hni
  | sendNotify | recvNotify | unlock => exact absurd h hni
  | idle | sendStart | sendLock | recvStart | recvLock | closeStore | closeProducer
  | closeProducerLoop | closeConsumer | closeConsumerLoop => trivial

/-- The buffer and the log stay, and the coroutine keeps its place with
respect to the lock. -/
theorem PcOk.congr (h : PcOk cap s i p) (hhold : s'.sync.hold i = s.sync.hold i)
    (hkind : s'.sync.kind i = s.sync.kind i) (hbuf : s'.buffer = s.buffer)
    (hclosed : s.partClosed = true → s'.partClosed = true)
    (hlog : .recvNull ∈ s'.log ↔ .recvNull ∈ s.log) : PcOk cap s' i p := by
  cases p with
  | sendWait v | recvWait =>
    unfold PcOk at h ⊢
    rw [hhold, hkind, hbuf]
    exact ⟨h.1, fun hr => (h.2 hr).imp id hclosed⟩
  | sendStore v =>
    unfold PcOk at h ⊢
    rw [hhold, hbuf, hlog]
    exact h
  | recvTake =>
    unfold PcOk at h ⊢
    rw [hhold, hbuf]
    exact h
  | recvComplete =>
    unfold PcOk at h ⊢
    rw [hhold, hlog]
    exact h
  | sendNotify | recvNotify | unlock =>
    unfold PcOk at h ⊢
    rw [hhold]
    exact h
  | idle | sendStart | sendLock | recvStart | recvLock | closeStore | closeProducer
  | closeProducerLoop | closeConsumer | closeConsumerLoop => trivial

theorem Shared.congr (h : Shared cap s q) (hbuf : s'.buffer = s.buffer)
    (hclose : s'.closeState = s.closeState) (hlog : s'.log = s.log) : Shared cap s' q := by
  refine ⟨hbuf ▸ h.holds, hlog ▸ h.conserved, ?_, ?_, hlog ▸ h.final⟩
  · rw [hlog]
    unfold State.partClosed
    rw [hclose]
    exact h.ended
  · rw [hlog]
    unfold State.completeClosed
    rw [hclose]
    exact h.complete

/-- A step of an awaiter or of `unlock`. -/
theorem Inv.passive {y : Sync.State ι Cv ι} (h : Inv cap s q) (hy : Sync.Passive s.sync y) :
    Inv cap { s with sync := y } q := by
  refine ⟨h.shared.congr rfl rfl rfl, fun i => ?_⟩
  have hi := h.pcs i
  show PcOk cap { s with sync := y } i (s.pc i)
  -- An awaiter with a predicate evaluates it first when it gets the lock.
  have hready : (∃ k, s.sync.kind i = .cvAwaiter k true) → (y.hold i).Runs →
      (s.sync.hold i).Runs := by
    intro hcond hr
    obtain ⟨k, hk⟩ := hcond
    rcases hy.runs i hr with hold | heq
    · exact hold
    · rw [heq, hk] at hr
      rcases hr with hr | hr <;> cases hr
  cases hp : s.pc i with
  | sendWait v =>
    rw [hp] at hi
    exact ⟨by rw [hy.kind]; exact hi.1, fun hr => hi.2 (hready hi.1 hr)⟩
  | recvWait =>
    rw [hp] at hi
    exact ⟨by rw [hy.kind]; exact hi.1, fun hr => hi.2 (hready hi.1 hr)⟩
  | sendStore v =>
    rw [hp] at hi
    exact ⟨hy.inside i hi.1, hi.2⟩
  | recvTake =>
    rw [hp] at hi
    exact ⟨hy.inside i hi.1, hi.2⟩
  | recvComplete =>
    rw [hp] at hi
    exact ⟨hy.inside i hi.1, hi.2⟩
  | sendNotify | recvNotify | unlock =>
    rw [hp] at hi
    exact hy.inside i hi
  | idle | sendStart | sendLock | recvStart | recvLock | closeStore | closeProducer
  | closeProducerLoop | closeConsumer | closeConsumerLoop => trivial

end

/-- A call moves on without touching the buffer, the close state or the log.
The others keep their places. -/
theorem Inv.goto {y : Sync.State ι Cv ι} (h : Inv cap s q)
    (hothers : ∀ j, j ≠ i → y.hold j = s.sync.hold j ∧ y.kind j = s.sync.kind j)
    (hp : PcOk cap { s with sync := y } i p) : Inv cap ({ s with sync := y }.goto i p) q := by
  refine ⟨h.shared.congr rfl rfl rfl, fun j => ?_⟩
  by_cases hj : j = i
  · subst hj
    simp only [State.goto, Function.update_self]
    exact hp.congr rfl rfl rfl id Iff.rfl
  · simp only [State.goto, Function.update_of_ne hj]
    obtain ⟨hhold, hkind⟩ := hothers j hj
    exact (h.pcs j).congr hhold hkind rfl id Iff.rfl

/-- A call that runs with the lock moves on.  Nobody else knows anything
about the buffer. -/
theorem Inv.critical (h : Inv cap s q) {q' : List T} (hg : Sync.Good s.sync)
    (hi : s.sync.hold i = .inside) (hsync : s'.sync = s.sync)
    (hpc : s'.pc = Function.update s.pc i p) (hshared : Shared cap s' q')
    (hp : PcOk cap s' i p) : Inv cap s' q' := by
  refine ⟨hshared, fun j => ?_⟩
  rw [hpc]
  by_cases hj : j = i
  · subst hj
    rw [Function.update_self]
    exact hp
  · rw [Function.update_of_ne hj]
    refine (h.pcs j).of_not_runs ?_ (by rw [hsync]) (by rw [hsync])
    intro hr
    have hne : s.sync.hold j ≠ .none := by
      rcases hr with hr | hr <;> simp [hr]
    exact hj (hg.unique hne (by simp [hi]))

/-- A call moves on with a step of the mutex or of a condition variable. -/
theorem Inv.clientSync {l : Sync.Label ι Cv ι} (h : Inv cap s q)
    (hs : (s.onSync l).map (fun u => u.goto i p) = some s')
    (hl : ∀ y, Sync.step s.sync l = some y →
      (∀ j, j ≠ i → y.hold j = s.sync.hold j ∧ y.kind j = s.sync.kind j) ∧
      PcOk cap { s with sync := y } i p) : Inv cap s' q := by
  obtain ⟨u, hu, rfl⟩ := Option.map_eq_some_iff.mp hs
  obtain ⟨y, hy, rfl⟩ := onSync_eq_some.mp hu
  obtain ⟨hothers, hp⟩ := hl y hy
  exact h.goto hothers hp

/-- The labels of the two notifications. -/
def IsNotify (l : Sync.Label ι Cv ι) : Prop :=
  (∃ k, l = .notifyOne k) ∨ (∃ m k, l = .notifyAll m k) ∨ ∃ m, l = .notifyNext m

/-- A notification moves awaiters, but nobody gets the lock in it. -/
theorem notify_hold {x y : Sync.State ι Cv ι} {l : Sync.Label ι Cv ι}
    (hs : Sync.step x l = some y) (hl : IsNotify l) : y.hold = x.hold ∧ y.kind = x.kind := by
  rcases hl with ⟨k, rfl⟩ | ⟨m, k, rfl⟩ | ⟨m, rfl⟩
  · simp only [Sync.step, Option.some.injEq] at hs
    subst hs
    exact (Sync.notifyOne_hold k).symm
  · obtain ⟨_, ⟨⟩⟩ := Option.ite_none_right_eq_some.mp hs
    exact ⟨rfl, rfl⟩
  · simp only [Sync.step] at hs
    split at hs
    · cases hs
      exact ⟨rfl, rfl⟩
    · cases hs

theorem Inv.clientNotify {l : Sync.Label ι Cv ι} (h : Inv cap s q)
    (hs : (s.onSync l).map (fun u => u.goto i p) = some s') (hl : IsNotify l)
    (hp : PcOk cap s i p) : Inv cap s' q := by
  apply h.clientSync hs
  intro y hy
  obtain ⟨hhold, hkind⟩ := notify_hold hy hl
  exact ⟨fun j _ => ⟨by rw [hhold], by rw [hkind]⟩,
    hp.congr (congrFun hhold i) (congrFun hkind i) rfl id Iff.rfl⟩

theorem Inv.notifyNext (h : Inv cap s q) (hs : s.onSync (.notifyNext i) = some s') :
    Inv cap s' q := by
  obtain ⟨y, hy, rfl⟩ := onSync_eq_some.mp hs
  obtain ⟨hhold, hkind⟩ := notify_hold hy (.inr (.inr ⟨_, rfl⟩))
  exact h.passive (Sync.Passive.of_hold hkind hhold)

section

omit [DecidableEq ι]

/-- An outcome that moves no value is logged. -/
theorem Shared.record {e : Event T} (h : Shared cap s q) (hs : sent [e] = [])
    (hr : received [e] = []) (hnull : e = .recvNull → q = [] ∧ s.partClosed = true) :
    Shared cap (s.record e) q := by
  refine ⟨h.holds, ?_, fun hm => ?_, fun hc => ?_, ?_⟩
  · simp only [State.record, sent_append, received_append, hs, hr, List.append_nil]
    exact h.conserved
  · rcases List.mem_append.mp hm with hm | hm
    · exact h.ended hm
    · exact hnull (List.mem_singleton.mp hm).symm
  · exact List.mem_append_left _ (h.complete hc)
  · apply h.final.snoc hs hr
    intro he
    have hcons := h.conserved
    rw [(hnull he).1, List.append_nil] at hcons
    exact hcons.symm

/-- A value is put into the buffer or taken out of it. -/
theorem Shared.move {b : Buffer T} {e : Event T} {q' : List T} (h : Shared cap s q)
    (hnot : .recvNull ∉ s.log) (he : e ≠ .recvNull) (hholds : b.Holds cap q')
    (hcons : sent (s.log ++ [e]) = received (s.log ++ [e]) ++ q') :
    Shared cap ({ s with buffer := b }.record e) q' := by
  refine ⟨hholds, hcons, fun hm => ?_, fun hc => ?_, Final.of_not_mem hnot he⟩
  · rcases List.mem_append.mp hm with hm | hm
    · exact absurd hm hnot
    · exact absurd (List.mem_singleton.mp hm).symm he
  · exact absurd (h.complete hc) hnot

/-- The close state only ever says less than `no_close` again. -/
theorem Shared.close {c : Nat} (h : Shared cap s q) (hc : c ≤ partClose)
    (hcomplete : c ≤ completeClose → .recvNull ∈ s.log) :
    Shared cap { s with closeState := c } q := by
  refine ⟨h.holds, h.conserved, fun hm => ⟨(h.ended hm).1, ?_⟩, fun hcl => ?_, h.final⟩
  · exact decide_eq_true hc
  · exact hcomplete (of_decide_eq_true hcl)

end

theorem Inv.sendStart (h : Inv cap s q) : Inv cap ((s.record .sendFalse).goto i .idle) q := by
  have hsh := h.shared.record (e := .sendFalse) rfl rfl (by simp)
  have hrec : Inv cap (s.record .sendFalse) q :=
    ⟨hsh, fun j => (h.pcs j).congr rfl rfl rfl id (by simp [State.record])⟩
  exact hrec.goto (p := .idle) (y := s.sync) (fun j _ => ⟨rfl, rfl⟩) trivial

theorem Inv.recvStart (h : Inv cap s q) (hclosed : s.completeClosed = true) :
    Inv cap ((s.record .recvNull).goto i .idle) q := by
  have hmem := h.shared.complete hclosed
  have hsh := h.shared.record (e := .recvNull) rfl rfl fun _ => h.shared.ended hmem
  have hrec : Inv cap (s.record .recvNull) q :=
    ⟨hsh, fun j => (h.pcs j).congr rfl rfl rfl id (by simp [State.record, hmem])⟩
  exact hrec.goto (p := .idle) (y := s.sync) (fun j _ => ⟨rfl, rfl⟩) trivial

theorem Inv.closeStore (h : Inv cap s q) :
    Inv cap ({ s with closeState := partClose }.goto i .closeProducer) q := by
  have hsh := h.shared.close (c := partClose) (Nat.le_refl _) (by simp [partClose, completeClose])
  have hclose : Inv cap { s with closeState := partClose } q :=
    ⟨hsh, fun j => (h.pcs j).congr rfl rfl rfl (fun _ => rfl) Iff.rfl⟩
  exact hclose.goto (p := .closeProducer) (y := s.sync) (fun j _ => ⟨rfl, rfl⟩) trivial

theorem Inv.sendWait {v : T} (h : Inv cap s q) (hg : Sync.Good s.sync)
    (hp : s.pc i = .sendWait v) (hs : clientStep cap s i (.sendWait v) = some s') :
    Inv cap s' q := by
  have hok := h.pcs i
  rw [hp] at hok
  obtain ⟨hin, hs⟩ := Option.ite_none_right_eq_some.mp hs
  have hrun := hok.2 (.inr hin)
  split_ifs at hs with hclosed
  · cases hs
    have hsh := h.shared.record (e := .sendFalse) rfl rfl (by simp)
    exact h.critical hg hin rfl rfl (hsh.congr rfl rfl rfl) hin
  · cases hs
    refine h.critical hg hin rfl rfl (h.shared.congr rfl rfl rfl) ⟨hin, ?_, fun hm => ?_⟩
    · exact hrun.resolve_right hclosed
    · exact hclosed (h.shared.ended hm).2

theorem Inv.recvWait (h : Inv cap s q) (hg : Sync.Good s.sync) (hp : s.pc i = .recvWait)
    (hs : clientStep cap s i .recvWait = some s') : Inv cap s' q := by
  have hok := h.pcs i
  rw [hp] at hok
  obtain ⟨hin, hs⟩ := Option.ite_none_right_eq_some.mp hs
  have hrun := hok.2 (.inr hin)
  split_ifs at hs with hcond
  · cases hs
    obtain ⟨hempty, hclosed⟩ := Bool.and_eq_true_iff.mp hcond
    have hnil := h.shared.holds.empty_iff.mp hempty
    have hsh := h.shared.record (e := .recvNull) rfl rfl fun _ => ⟨hnil, hclosed⟩
    exact h.critical hg hin rfl rfl (hsh.congr rfl rfl rfl)
      ⟨hin, by simp [State.record, State.goto]⟩
  · cases hs
    refine h.critical hg hin rfl rfl (h.shared.congr rfl rfl rfl) ⟨hin, ?_⟩
    rcases hrun with hempty | hclosed
    · exact hempty
    · rw [hclosed, Bool.and_true, Bool.not_eq_true] at hcond
      exact hcond

theorem Inv.sendStore {v : T} (h : Inv cap s q) (hg : Sync.Good s.sync)
    (hp : s.pc i = .sendStore v) :
    Inv cap (({ s with buffer := s.buffer.put cap v }.record (.sendTrue v)).goto i .sendNotify)
      (q ++ [v]) := by
  have hok := h.pcs i
  rw [hp] at hok
  obtain ⟨hin, hfull, hnot⟩ := hok
  have hcons : sent (s.log ++ [.sendTrue v]) = received (s.log ++ [.sendTrue v]) ++ (q ++ [v]) := by
    rw [sent_append, received_append, h.shared.conserved]
    simp [sent, received]
  have hsh := h.shared.move hnot (by simp) (h.shared.holds.put hfull) hcons
  exact h.critical hg hin rfl rfl (hsh.congr rfl rfl rfl) hin

theorem Inv.recvTake (h : Inv cap s q) (hg : Sync.Good s.sync) (hp : s.pc i = .recvTake)
    (hs : clientStep cap s i .recvTake = some s') : ∃ q', Inv cap s' q' := by
  have hok := h.pcs i
  rw [hp] at hok
  obtain ⟨hin, hempty⟩ := hok
  cases q with
  | nil =>
    have hnil := h.shared.holds.empty_iff.mpr rfl
    rw [hempty] at hnil
    cases hnil
  | cons v q =>
    obtain ⟨hfront, hpop⟩ := h.shared.holds.pop
    have hnot : .recvNull ∉ s.log := fun hm => by simpa using (h.shared.ended hm).1
    simp only [clientStep, hfront, Option.some.injEq] at hs
    subst hs
    have hcons : sent (s.log ++ [.recvSome v]) = received (s.log ++ [.recvSome v]) ++ q := by
      rw [sent_append, received_append, h.shared.conserved]
      simp [sent, received]
    have hsh := h.shared.move hnot (by simp) hpop hcons
    exact ⟨q, h.critical hg hin rfl rfl (hsh.congr rfl rfl rfl) hin⟩

/-- The predicate of a wait is evaluated: when it holds, so does what the
coroutine looks for. -/
theorem Inv.eval {value : Bool} (h : Inv cap s q) (hcond : s.cond cap i = some value)
    (hs : s.onSync (.eval i value) = some s') : Inv cap s' q := by
  obtain ⟨y, hy, rfl⟩ := onSync_eq_some.mp hs
  -- Only the place of `i` changes, and it runs on only when the value is true.
  have hplace : y.kind = s.sync.kind ∧ (∀ j, j ≠ i → y.hold j = s.sync.hold j) ∧
      ((y.hold i).Runs → value = true) := by
    simp only [Sync.step] at hy
    split at hy
    · cases hy
      refine ⟨rfl, fun j hj => Function.update_of_ne hj .., fun hr => ?_⟩
      cases value
      · simp [Sync.State.setHold, Sync.Hold.Runs] at hr
      · rfl
    · cases hy
      refine ⟨rfl, fun j hj => Function.update_of_ne hj .., fun hr => ?_⟩
      cases value
      · simp [Sync.State.setHold, Sync.Hold.Runs] at hr
      · rfl
    · cases hy
  obtain ⟨hkind, hothers, hvalue⟩ := hplace
  refine ⟨h.shared.congr rfl rfl rfl, fun j => ?_⟩
  show PcOk cap { s with sync := y } j (s.pc j)
  by_cases hj : j = i
  · subst hj
    have hok := h.pcs j
    unfold State.cond at hcond
    split at hcond
    · next v hp =>
      rw [hp] at hok ⊢
      refine ⟨by rw [hkind]; exact hok.1, fun hr => ?_⟩
      have htrue := hvalue hr
      simp only [Option.some.injEq] at hcond
      rw [htrue] at hcond
      simpa [State.partClosed] using hcond
    · next hp =>
      rw [hp] at hok ⊢
      refine ⟨by rw [hkind]; exact hok.1, fun hr => ?_⟩
      have htrue := hvalue hr
      simp only [Option.some.injEq] at hcond
      rw [htrue] at hcond
      simpa [State.partClosed] using hcond
    · cases hcond
  · exact (h.pcs j).congr (hothers j hj) (by simp only [hkind]) rfl id Iff.rfl

theorem Inv.client (h : Inv cap s q) (hg : Sync.Good s.sync)
    (hs : clientStep cap s i (s.pc i) = some s') : ∃ q', Inv cap s' q' := by
  have hok := h.pcs i
  have hlock : ∀ p : Pc T, (∀ u : State ι T, PcOk cap u i p) →
      (s.onSync (.lock i)).map (fun u => u.goto i p) = some s' → ∃ q', Inv cap s' q' := by
    intro p hp hs
    refine ⟨q, h.clientSync hs fun y hy => ?_⟩
    obtain ⟨_, ⟨⟩⟩ := Option.ite_none_right_eq_some.mp hy
    exact ⟨fun j hj => ⟨rfl, Function.update_of_ne hj ..⟩, hp _⟩
  cases hp : s.pc i with
  | idle =>
    rw [hp] at hs
    cases hs
  | sendStart v =>
    simp only [clientStep, hp] at hs
    split_ifs at hs with hclosed
    · cases hs
      exact ⟨q, h.sendStart⟩
    · exact hlock (.sendLock v) (fun _ => trivial) hs
  | recvStart =>
    simp only [clientStep, hp] at hs
    split_ifs at hs with hclosed
    · cases hs
      exact ⟨q, h.recvStart hclosed⟩
    · exact hlock .recvLock (fun _ => trivial) hs
  | sendLock v =>
    simp only [clientStep, hp] at hs
    refine ⟨q, h.clientSync hs fun y hy => ?_⟩
    obtain ⟨_, ⟨⟩⟩ := Option.ite_none_right_eq_some.mp hy
    refine ⟨fun j hj => ⟨Function.update_of_ne hj .., Function.update_of_ne hj ..⟩,
      ⟨.producer, by simp⟩, fun hr => ?_⟩
    simp [Sync.State.setHold, Sync.Hold.Runs] at hr
  | recvLock =>
    simp only [clientStep, hp] at hs
    refine ⟨q, h.clientSync hs fun y hy => ?_⟩
    obtain ⟨_, ⟨⟩⟩ := Option.ite_none_right_eq_some.mp hy
    refine ⟨fun j hj => ⟨Function.update_of_ne hj .., Function.update_of_ne hj ..⟩,
      ⟨.consumer, by simp⟩, fun hr => ?_⟩
    simp [Sync.State.setHold, Sync.Hold.Runs] at hr
  | sendWait v =>
    rw [hp] at hs
    exact ⟨q, h.sendWait hg hp hs⟩
  | recvWait =>
    rw [hp] at hs
    exact ⟨q, h.recvWait hg hp hs⟩
  | sendStore v =>
    simp only [clientStep, hp, Option.some.injEq] at hs
    subst hs
    exact ⟨q ++ [v], h.sendStore hg hp⟩
  | recvTake =>
    rw [hp] at hs
    exact h.recvTake hg hp hs
  | recvComplete =>
    simp only [clientStep, hp, Option.some.injEq] at hs
    subst hs
    rw [hp] at hok
    have hsh := h.shared.close (c := completeClose) (by simp [completeClose]) fun _ => hok.2
    exact ⟨q, h.critical hg hok.1 rfl rfl (hsh.congr rfl rfl rfl) hok.1⟩
  | sendNotify =>
    simp only [clientStep, hp] at hs
    rw [hp] at hok
    exact ⟨q, h.clientNotify hs (.inl ⟨_, rfl⟩) hok⟩
  | recvNotify =>
    simp only [clientStep, hp] at hs
    rw [hp] at hok
    exact ⟨q, h.clientNotify hs (.inl ⟨_, rfl⟩) hok⟩
  | unlock =>
    simp only [clientStep, hp] at hs
    refine ⟨q, h.clientSync hs fun y hy => ?_⟩
    obtain ⟨_, ⟨⟩⟩ := Option.ite_none_right_eq_some.mp hy
    exact ⟨fun j hj => ⟨Function.update_of_ne hj .., rfl⟩, trivial⟩
  | closeStore =>
    simp only [clientStep, hp, Option.some.injEq] at hs
    subst hs
    exact ⟨q, h.closeStore⟩
  | closeProducer | closeConsumer =>
    simp only [clientStep, hp] at hs
    exact ⟨q, h.clientNotify hs (.inr (.inl ⟨_, _, rfl⟩)) trivial⟩
  | closeProducerLoop =>
    simp only [clientStep, hp] at hs
    split_ifs at hs
    · cases hs
      exact ⟨q, h.goto (p := .closeConsumer) (y := s.sync) (fun j _ => ⟨rfl, rfl⟩) trivial⟩
    · exact ⟨q, h.notifyNext hs⟩
  | closeConsumerLoop =>
    simp only [clientStep, hp] at hs
    split_ifs at hs
    · cases hs
      have hgoto := h.goto (i := i) (p := .idle) (y := s.sync) (fun j _ => ⟨rfl, rfl⟩) trivial
      exact ⟨q, hgoto.shared.congr rfl rfl rfl, fun j =>
        (hgoto.pcs j).congr rfl rfl rfl id Iff.rfl⟩
    · exact ⟨q, h.notifyNext hs⟩

theorem Inv.step {a : Label ι T} (h : Inv cap s q) (hg : Sync.Good s.sync)
    (hs : step cap s a = some s') : ∃ q', Inv cap s' q' := by
  have hcall : ∀ i (p : Pc T), (∀ u : State ι T, PcOk cap u i p) → Inv cap (s.goto i p) q := by
    intro i p hp
    exact h.goto (y := s.sync) (fun j _ => ⟨rfl, rfl⟩) (hp _)
  cases a with
  | send i | recv i | close i =>
    obtain ⟨_, ⟨⟩⟩ := Option.ite_none_right_eq_some.mp hs
    exact ⟨q, hcall i _ fun _ => trivial⟩
  | client i => exact h.client hg hs
  | eval i =>
    obtain ⟨value, hcond, hs⟩ := Option.bind_eq_some_iff.mp hs
    exact ⟨q, h.eval hcond hs⟩
  | registerLock i spurious =>
    obtain ⟨y, hy, rfl⟩ := onSync_eq_some.mp hs
    exact ⟨q, h.passive (Sync.passive_registerLock hg hy)⟩
  | enter i =>
    obtain ⟨y, hy, rfl⟩ := onSync_eq_some.mp hs
    exact ⟨q, h.passive (Sync.passive_enter hg hy)⟩
  | registerCv i =>
    obtain ⟨y, hy, rfl⟩ := onSync_eq_some.mp hs
    exact ⟨q, h.passive (Sync.passive_registerCv hg hy)⟩
  | unlock i =>
    obtain ⟨y, hy, rfl⟩ := onSync_eq_some.mp hs
    exact ⟨q, h.passive (Sync.passive_unlock hg hy)⟩
  | reuse i p =>
    obtain ⟨y, hy, rfl⟩ := onSync_eq_some.mp hs
    exact ⟨q, h.passive (Sync.passive_reuse hy)⟩

end Steps

omit [DecidableEq ι] in
theorem Init.inv {cap : Nat} {s : State ι T} (h : Init cap s) : Inv cap s [] := by
  refine ⟨⟨h.buffer.holds, ?_, ?_, ?_, ?_⟩, fun i => ?_⟩
  · simp [h.log, sent, received]
  · simp [h.log]
  · simp [State.completeClosed, h.closeState, noClose, completeClose]
  · intro pre post heq
    rw [h.log] at heq
    simp at heq
  · rw [h.pc i]
    trivial

theorem inv_of_reachable {cap : Nat} {s : State ι T} (h : (machine ι T cap).Reachable s) :
    ∃ q, Inv cap s q := by
  refine h.invariant (I := fun s => ∃ q, Inv cap s q) (fun s h0 => ⟨[], Init.inv h0⟩) ?_
  intro s a s' hr hinv hs
  obtain ⟨q, hinv⟩ := hinv
  exact hinv.step (sync_good hr) hs

end SheepCoro.Channel
