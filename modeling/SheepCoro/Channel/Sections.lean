import SheepCoro.Channel.Fifo
import SheepCoro.Spin.Progress

/-!
# A channel over the spinlocks

`SheepCoro.Channel` takes the sections of `m_producer_cv` and `m_consumer_cv`
for one step.  Here they are those of `SheepCoro.Spin`.  A coroutine that calls
`notify_one` or `notify_all` in `send`, `recv` or `close` stays at the call
until its section is over, and every access in between is a step of its own;
so is every access of a waiter in `register_cv`.

`commits` is what a step shows to `SheepCoro.Channel`.  Every run is a run
there (`runs_of_run`), so what holds of a channel over atomic sections holds
over the accesses.
-/

namespace SheepCoro.Channel.Sections

open Lib

open Sync (Good)

structure State (ι T : Type) where
  chan : Channel.State ι T
  /-- `lock_` of `m_producer_cv` and of `m_consumer_cv`. -/
  lock : Cv → Bool
  pos : Spin.Caller ι ι → Option (Cv × Spin.Pc ι)

inductive Label (ι T : Type)
  /-- A step outside of the sections. -/
  | chan (a : Channel.Label ι T)
  /-- The call of a notification. -/
  | notify (i : ι)
  /-- The first line of `register_cv`. -/
  | registerCv (i : ι)
  /-- The next access of a caller. -/
  | act (x : Spin.Caller ι ι)

variable {ι T : Type} [DecidableEq ι]

/-- The notification that a coroutine is about to call. -/
def call (i : ι) : Pc T → Option (Spin.Label ι Cv ι)
  | .sendNotify => some (.notifyOne i .consumer)
  | .recvNotify => some (.notifyOne i .producer)
  | .closeProducer => some (.notifyAll i .producer)
  | .closeConsumer => some (.notifyAll i .consumer)
  | _ => none

/-- Where a coroutine goes on behind the section of a notification. -/
def behind : Pc T → Pc T
  | .sendNotify | .recvNotify => .unlock
  | .closeProducer => .closeProducerLoop
  | .closeConsumer => .closeConsumerLoop
  | p => p

def State.spin (s : State ι T) : Spin.State ι Cv ι where
  sync := s.chan.sync
  lock := s.lock
  pos := s.pos

def State.withSpin (s : State ι T) (f : Spin.State ι Cv ι) : State ι T where
  chan := { s.chan with sync := f.sync }
  lock := f.lock
  pos := f.pos

/-- A coroutine whose section is over goes on. -/
def State.advance (s : State ι T) : Spin.Caller ι ι → State ι T
  | .notifier i =>
    if (s.pos (.notifier i)).isNone then
      { s with chan := s.chan.goto i (behind (s.chan.pc i)) }
    else s
  | .awaiter _ => s

/-- The steps of a channel that are not taken apart. -/
def plain (s : Channel.State ι T) : Channel.Label ι T → Bool
  | .client i => (call i (s.pc i)).isNone
  | .registerCv _ => false
  | .reuse i _ => s.sync.hold i ≠ .registerCv
  | _ => true

def step (cap : Nat) (s : State ι T) : Label ι T → Option (State ι T)
  | .chan a =>
    if plain s.chan a then (Channel.step cap s.chan a).map fun y => { s with chan := y } else none
  | .notify i => (call i (s.chan.pc i)).bind fun l => (Spin.step s.spin l).map s.withSpin
  | .registerCv i => (Spin.step s.spin (.registerCv i)).map s.withSpin
  | .act x => (Spin.step s.spin (.act x)).map fun f => (s.withSpin f).advance x

/-- A new channel, and nobody in a section. -/
structure Init (cap : Nat) (s : State ι T) : Prop where
  chan : Channel.Init cap s.chan
  lock : ∀ k, s.lock k = false
  pos : ∀ x, s.pos x = none

variable (ι T) in
def machine (cap : Nat) : Machine (State ι T) (Label ι T) where
  init := Init cap
  step := step cap

/-- The step of `SheepCoro.Channel` that a section is, when it ends at this
position. -/
def commit : Spin.Caller ι ι → Spin.Pc ι → List (Channel.Label ι T)
  | .awaiter i, .linked => [.registerCv i]
  | .notifier i, .taken _ | .notifier i, .emptied _ => [.client i]
  | _, _ => []

def commits (s : State ι T) : Label ι T → List (Channel.Label ι T)
  | .chan a => [a]
  | .act x => ((s.pos x).map fun p => commit x p.2).getD []
  | _ => []

variable {cap : Nat} {c s' : Channel.State ι T} {s : Channel.State ι T} {a : Channel.Label ι T}
  {i j : ι}

/-! ## Steps that do not see the lists -/

/-- A step from `s` to `s'` and the same step over another state `t` of the
mutex and the condition variables. -/
inductive Over (cap : Nat) (s : Channel.State ι T) (a : Channel.Label ι T)
    (s' : Channel.State ι T) (t : Sync.State ι Cv ι) : Prop
  | alone (hsync : s'.sync = s.sync)
      (hover : Channel.step cap { s with sync := t } a = some { s' with sync := t }) :
      Over cap s a s' t
  | sync {l : Sync.Label ι Cv ι} (houtside : Spin.outside s.sync l = true)
      (hsync : Sync.step s.sync l = some s'.sync)
      (hover : ∀ y, Sync.step t l = some y →
        Channel.step cap { s with sync := t } a = some { s' with sync := y }) : Over cap s a s' t

section Over

variable {t : Sync.State ι Cv ι} {l : Sync.Label ι Cv ι} {p : Pc T}

theorem Over.of_onSync (hs : s.onSync l = some s') (houtside : Spin.outside s.sync l = true)
    (hover : Channel.step cap { s with sync := t } a =
      ({ s with sync := t } : Channel.State ι T).onSync l) : Over cap s a s' t := by
  obtain ⟨y, hy, rfl⟩ := onSync_eq_some.mp hs
  refine .sync houtside hy ?_
  intro z hz
  rw [hover]
  exact onSync_eq_some.mpr ⟨z, hz, rfl⟩

theorem Over.of_goto (hs : (s.onSync l).map (fun u => u.goto i p) = some s')
    (houtside : Spin.outside s.sync l = true)
    (hover : Channel.step cap { s with sync := t } a =
      (({ s with sync := t } : Channel.State ι T).onSync l).map fun u => u.goto i p) :
    Over cap s a s' t := by
  obtain ⟨u, hu, rfl⟩ := Option.map_eq_some_iff.mp hs
  obtain ⟨y, hy, rfl⟩ := onSync_eq_some.mp hu
  refine .sync houtside hy ?_
  intro z hz
  rw [hover, onSync_eq_some.mpr ⟨z, hz, rfl⟩]
  rfl

/-- The steps that are not taken apart do not see the lists. -/
theorem plain_over (hs : Channel.step cap s a = some s') (hplain : plain s a = true)
    (hhold : t.hold = s.sync.hold) (hloc : t.loc = s.sync.loc)
    (hcur : t.curHead = s.sync.curHead) : Over cap s a s' t := by
  have hcall : ∀ {i}, ({ s with sync := t } : Channel.State ι T).canCall i ↔ s.canCall i := by
    intro i
    show (s.pc i).isIdle = true ∧ t.loc i = .none ∧ t.hold i = .none ↔ _
    rw [hhold, hloc]
    rfl
  cases a with
  | send i | recv i | close i =>
    obtain ⟨hcan, ⟨⟩⟩ := Option.ite_none_right_eq_some.mp hs
    exact .alone rfl (if_pos (hcall.mpr hcan))
  | registerCv i => cases hplain
  | registerLock | enter | unlock => exact .of_onSync hs rfl rfl
  | reuse i p => exact .of_onSync hs hplain rfl
  | eval i =>
    obtain ⟨value, hvalue, hs⟩ := Option.bind_eq_some_iff.mp hs
    refine .of_onSync hs rfl ?_
    show (s.cond cap i).bind _ = _
    rw [hvalue]
    rfl
  | client i =>
    have hat : Channel.step cap { s with sync := t } (.client i) =
        clientStep cap { s with sync := t } i (s.pc i) := rfl
    simp only [Channel.step] at hs
    cases hp : s.pc i with
    | idle =>
      rw [hp] at hs
      cases hs
    | sendNotify | recvNotify | closeProducer | closeConsumer =>
      simp only [plain, hp] at hplain
      cases hplain
    | sendStore | recvTake | recvComplete | closeStore =>
      rw [hp] at hs hat
      cases hs
      exact .alone rfl hat
    | sendLock | recvLock | unlock =>
      rw [hp] at hs hat
      exact .of_goto hs rfl hat
    | sendStart | recvStart =>
      rw [hp] at hs hat
      simp only [clientStep] at hs hat
      split_ifs at hs with hclosed
      · cases hs
        exact .alone rfl (hat.trans (if_pos hclosed))
      · exact .of_goto hs rfl (hat.trans (if_neg hclosed))
    | sendWait | recvWait =>
      rw [hp] at hs hat
      simp only [clientStep, hhold] at hs hat
      split_ifs at hs with hinside hclosed
      · cases hs
        exact .alone rfl (hat.trans ((if_pos hinside).trans (if_pos hclosed)))
      · cases hs
        exact .alone rfl (hat.trans ((if_pos hinside).trans (if_neg hclosed)))
    | closeProducerLoop | closeConsumerLoop =>
      rw [hp] at hs hat
      simp only [clientStep, hcur] at hs hat
      split_ifs at hs with hnone
      · cases hs
        exact .alone rfl (hat.trans (if_pos hnone))
      · exact .of_onSync hs rfl (hat.trans (if_neg hnone))

theorem onSync_pc (hs : s.onSync l = some s') : s'.pc = s.pc := by
  obtain ⟨y, -, rfl⟩ := onSync_eq_some.mp hs
  rfl

theorem goto_pc (hs : (s.onSync l).map (fun u => u.goto i p) = some s') (hj : j ≠ i) :
    s'.pc j = s.pc j := by
  obtain ⟨u, hu, rfl⟩ := Option.map_eq_some_iff.mp hs
  rw [← onSync_pc hu]
  exact Function.update_of_ne hj ..

theorem clientStep_pc (hs : clientStep cap s i p = some s') (hj : j ≠ i) : s'.pc j = s.pc j := by
  have hgoto : ∀ {u : Channel.State ι T} {p'}, u.pc = s.pc → (u.goto i p').pc j = s.pc j := by
    intro u p' hu
    rw [← hu]
    exact Function.update_of_ne hj ..
  cases p with
  | idle => cases hs
  | sendStore | recvTake | recvComplete | closeStore =>
    cases hs
    exact hgoto rfl
  | sendLock | recvLock | unlock | sendNotify | recvNotify | closeProducer | closeConsumer =>
    simp only [clientStep] at hs
    exact goto_pc hs hj
  | sendStart | recvStart =>
    simp only [clientStep] at hs
    split_ifs at hs
    · cases hs
      exact hgoto rfl
    · exact goto_pc hs hj
  | sendWait | recvWait =>
    simp only [clientStep] at hs
    split_ifs at hs <;> cases hs <;> exact hgoto rfl
  | closeProducerLoop | closeConsumerLoop =>
    simp only [clientStep] at hs
    split_ifs at hs
    · cases hs
      exact hgoto rfl
    · rw [onSync_pc hs]

/-- Such a step leaves a coroutine that is about to notify where it is. -/
theorem plain_pc (hs : Channel.step cap s a = some s') (hplain : plain s a = true)
    (hcall : call i (s.pc i) ≠ none) : s'.pc i = s.pc i := by
  cases a with
  | send j | recv j | close j =>
    obtain ⟨⟨hidle, -⟩, ⟨⟩⟩ := Option.ite_none_right_eq_some.mp hs
    refine Function.update_of_ne ?_ ..
    rintro rfl
    cases hp : s.pc i with
    | idle =>
      rw [hp] at hcall
      exact hcall rfl
    | _ =>
      rw [hp] at hidle
      cases hidle
  | client j =>
    refine clientStep_pc hs ?_
    rintro rfl
    exact hcall (Option.isNone_iff_eq_none.mp hplain)
  | eval j =>
    obtain ⟨value, -, hs⟩ := Option.bind_eq_some_iff.mp hs
    rw [onSync_pc hs]
  | registerLock | enter | registerCv | unlock | reuse => rw [onSync_pc hs]

end Over

/-! ## A section is one step -/

/-- The call that a position is part of. -/
def callOf (i : ι) (k : Cv) : Spin.Op → Spin.Label ι Cv ι
  | .registerCv => .registerCv i
  | .notifyOne => .notifyOne i k
  | .notifyAll => .notifyAll i k

/-- The channel `c` over atomic sections that comes of `s`. -/
structure Runs (s : State ι T) (c : Channel.State ι T) : Prop where
  rest : c = { s.chan with sync := c.sync }
  follows : Spin.Follows s.spin c.sync
  call : ∀ i k pc, s.pos (.notifier i) = some (k, pc) →
    call i (s.chan.pc i) = some (callOf i k pc.op)

variable {f f' : State ι T} {b : Label ι T} {bs : List (Label ι T)} {d : Channel.State ι T}
  {x : Spin.Caller ι ι} {k : Cv} {pc : Spin.Pc ι}

theorem Runs.chan (h : Runs f d) (hg : Good d.sync) (hplain : plain f.chan a = true)
    (hs : Channel.step cap f.chan a = some s') :
    ∃ d', Channel.step cap d a = some d' ∧ Runs { f with chan := s' } d' := by
  have hcalls : ∀ i k pc, f.pos (.notifier i) = some (k, pc) →
      Sections.call i (s'.pc i) = some (callOf i k pc.op) := by
    intro i k pc hpos
    have hcall := h.call i k pc hpos
    rw [plain_pc hs hplain (by rw [hcall]; simp)]
    exact hcall
  have hgraft := h.follows.graft
  cases plain_over (t := d.sync) hs hplain (by rw [hgraft]; rfl) (by rw [hgraft]; rfl)
    (by rw [hgraft]; rfl) with
  | alone hsync hover =>
    rw [← h.rest] at hover
    refine ⟨_, hover, rfl, ?_, hcalls⟩
    show Spin.Follows { f.spin with sync := s'.sync } d.sync
    rw [hsync]
    exact h.follows
  | sync houtside hsync hover =>
    obtain ⟨y, hy, hfollows⟩ := h.follows.sync hg houtside hsync
    have hstep := hover y hy
    rw [← h.rest] at hstep
    exact ⟨_, hstep, rfl, hfollows, hcalls⟩

/-- The call of a notification or of `register_cv`. -/
theorem Runs.called {l : Spin.Label ι Cv ι} {g : Spin.State ι Cv ι} (h : Runs f d)
    (hg : Good d.sync) (hs : Spin.step f.spin l = some g) (hcommits : Spin.commits f.spin l = [])
    (hpos : ∀ i k pc, g.pos (.notifier i) = some (k, pc) →
      f.pos (.notifier i) = some (k, pc) ∨
        Sections.call i (f.chan.pc i) = some (callOf i k pc.op)) :
    Runs (f.withSpin g) d := by
  obtain ⟨c', hrun, hfollows⟩ := Spin.follows_step hg h.follows hs
  rw [hcommits] at hrun
  cases hrun
  refine ⟨h.rest, hfollows, ?_⟩
  intro i k pc hi
  rcases hpos i k pc hi with hold | hnew
  · exact h.call i k pc hold
  · exact hnew

omit [DecidableEq ι] in
theorem commit_nil (h : pc.commit k x = []) : (commit x pc : List (Channel.Label ι T)) = [] := by
  cases x <;> cases pc <;> first | rfl | cases h

theorem advance_of_some {p : Cv × Spin.Pc ι} (h : f.pos x = some p) : f.advance x = f := by
  cases x with
  | awaiter i => rfl
  | notifier i =>
    refine if_neg ?_
    rw [h]
    simp

theorem advance_notifier (hnone : f.pos (.notifier i) = none) :
    f.advance (.notifier i) = { f with chan := f.chan.goto i (behind (f.chan.pc i)) } := by
  refine if_pos ?_
  rw [hnone]
  rfl

/-- The section of a notification of `i` is the step of `i` in `Channel`. -/
theorem client_call {y : Sync.State ι Cv ι} {l : Sync.Label ι Cv ι} {op : Spin.Op}
    (hcall : call i (d.pc i) = some (callOf i k op))
    (hl : op = .notifyOne ∧ l = .notifyOne k ∨ op = .notifyAll ∧ l = .notifyAll i k)
    (hs : Sync.step d.sync l = some y) :
    Channel.step cap d (.client i) = some ({ d with sync := y }.goto i (behind (d.pc i))) := by
  have hon : d.onSync l = some { d with sync := y } := onSync_eq_some.mpr ⟨y, hs, rfl⟩
  show clientStep cap d i (d.pc i) = _
  cases hp : d.pc i with
  | sendNotify | recvNotify =>
    rw [hp] at hcall
    rcases hl with ⟨rfl, rfl⟩ | ⟨rfl, rfl⟩
    · cases hcall
      simp only [clientStep, hon]
      rfl
    · cases hcall
  | closeProducer | closeConsumer =>
    rw [hp] at hcall
    rcases hl with ⟨rfl, rfl⟩ | ⟨rfl, rfl⟩
    · cases hcall
    · cases hcall
      simp only [clientStep, hon]
      rfl
  | _ =>
    rw [hp] at hcall
    cases hcall

/-- The section of `i` is over. -/
theorem Runs.finish {g : Spin.State ι Cv ι} {y : Sync.State ι Cv ι} (h : Runs f d)
    (hfollows : Spin.Follows g y) (hpos : g.pos (.notifier i) = none)
    (hcalls : ∀ j k pc, g.pos (.notifier j) = some (k, pc) →
      Sections.call j (f.chan.pc j) = some (callOf j k pc.op)) :
    Runs ((f.withSpin g).advance (.notifier i))
      ({ d with sync := y }.goto i (behind (d.pc i))) := by
  have hnone : (f.withSpin g).pos (.notifier i) = none := hpos
  rw [advance_notifier hnone]
  refine ⟨?_, hfollows, ?_⟩
  · rw [h.rest]
    rfl
  · intro j k pc hj
    have hji : j ≠ i := by
      rintro rfl
      cases hnone.symm.trans hj
    show Sections.call j (Function.update f.chan.pc i (behind (f.chan.pc i)) j) = _
    rw [Function.update_of_ne hji]
    exact hcalls j k pc hj

/-- The next access of a caller. -/
theorem Runs.act (h : Runs f d) (hg : Good d.sync) (hs : step cap f (.act x) = some f') :
    ∃ d', (Channel.machine ι T cap).run d (commits f (.act x)) = some d' ∧ Runs f' d' := by
  obtain ⟨g, hstep, rfl⟩ := Option.map_eq_some_iff.mp hs
  cases Spin.step_cases hstep with
  | @act _ k pc _ hpos hact =>
    have hcommits : commits f (.act x) = commit x pc := by
      have hat : f.pos x = some (k, pc) := hpos
      simp only [commits, hat, Option.map_some, Option.getD_some]
    obtain ⟨y, hrun, hfollows⟩ := h.follows.act hg hpos hact
    have hcalls : ∀ j k' pc', g.pos (.notifier j) = some (k', pc') →
        Sections.call j (f.chan.pc j) = some (callOf j k' pc'.op) := by
      intro j k' pc' hj
      by_cases hjx : .notifier j = x
      · subst hjx
        obtain ⟨rfl, hop⟩ := Spin.act_op hpos hact hj
        rw [hop]
        exact h.call j _ pc hpos
      · rw [Spin.act_others hact hjx] at hj
        exact h.call j k' pc' hj
    rw [hcommits]
    -- Nothing is over while the caller has a position.
    have hstays : ∀ {p}, g.pos x = some p → pc.commit k x = [] →
        ∃ d', (Channel.machine ι T cap).run d (commit x pc) = some d' ∧
          Runs ((f.withSpin g).advance x) d' := by
      intro p hp hnil
      rw [hnil] at hrun
      cases hrun
      rw [commit_nil hnil, advance_of_some (f := f.withSpin g) hp]
      exact ⟨d, rfl, h.rest, hfollows, hcalls⟩
    cases hact with
    | busy | enter | retry => exact hstays (Function.update_self ..) (by cases x <;> rfl)
    | spin => exact hstays hpos (by cases x <;> rfl)
    | access _ haccess => exact hstays (Function.update_self ..) (Spin.commit_access haccess)
    | unlock hin hunlock =>
      cases x with
      | awaiter i =>
        cases pc with
        | linked =>
          obtain ⟨u, hu, ⟨⟩⟩ := Machine.run_cons.mp hrun
          refine ⟨{ d with sync := y }, Machine.run_cons.mpr
            ⟨_, onSync_eq_some.mpr ⟨y, hu, rfl⟩, rfl⟩, ?_, hfollows, hcalls⟩
          rw [h.rest]
          rfl
        | _ => cases hunlock
      | notifier i =>
        have hcall : Sections.call i (d.pc i) = some (callOf i k pc.op) := by
          rw [h.rest]
          exact h.call i k pc hpos
        have hnone := Function.update_self (Spin.Caller.notifier i) none f.spin.pos
        cases pc with
        | taken p =>
          obtain ⟨u, hu, ⟨⟩⟩ := Machine.run_cons.mp hrun
          have hclient : Channel.step cap d (.client i) = some _ :=
            client_call hcall (.inl ⟨rfl, rfl⟩) hu
          exact ⟨_, Machine.run_cons.mpr ⟨_, hclient, rfl⟩, h.finish hfollows hnone hcalls⟩
        | emptied p =>
          obtain ⟨u, hu, ⟨⟩⟩ := Machine.run_cons.mp hrun
          have hclient : Channel.step cap d (.client i) = some _ :=
            client_call hcall (.inr ⟨rfl, rfl⟩) hu
          exact ⟨_, Machine.run_cons.mpr ⟨_, hclient, rfl⟩, h.finish hfollows hnone hcalls⟩
        | _ => cases hunlock

omit [DecidableEq ι] in
theorem call_eq {p : Pc T} {l : Spin.Label ι Cv ι} (h : call i p = some l) :
    ∃ k, l = .notifyOne i k ∨ l = .notifyAll i k := by
  cases p with
  | sendNotify | recvNotify =>
    cases h
    exact ⟨_, .inl rfl⟩
  | closeProducer | closeConsumer =>
    cases h
    exact ⟨_, .inr rfl⟩
  | _ => cases h

/-- The call of a notification. -/
theorem Runs.notify (h : Runs f d) (hg : Good d.sync) (hs : step cap f (.notify i) = some f') :
    Runs f' d := by
  obtain ⟨l, hcall, hs⟩ := Option.bind_eq_some_iff.mp hs
  obtain ⟨g, hstep, rfl⟩ := Option.map_eq_some_iff.mp hs
  have hgoto : ∀ {k} op, Sections.call i (f.chan.pc i) = some (callOf i k op) → ∀ j k' pc,
      Function.update f.pos (.notifier i) (some (k, .exchange op)) (.notifier j) = some (k', pc) →
      f.pos (.notifier j) = some (k', pc) ∨
        Sections.call j (f.chan.pc j) = some (callOf j k' pc.op) := by
    intro k op hop j k' pc hj
    rcases update_eq_iff.mp hj with ⟨hji, heq⟩ | ⟨_, hold⟩
    · cases hji
      cases heq
      exact .inr hop
    · exact .inl hold
  obtain ⟨k, rfl | rfl⟩ := call_eq hcall
  · refine h.called hg hstep rfl ?_
    cases Spin.step_cases hstep with
    | notifyOne => exact hgoto .notifyOne hcall
  · refine h.called hg hstep rfl ?_
    cases Spin.step_cases hstep with
    | notifyAll => exact hgoto .notifyAll hcall

theorem runs_step (hg : Good d.sync) (h : Runs f d) (hs : step cap f b = some f') :
    ∃ d', (Channel.machine ι T cap).run d (commits f b) = some d' ∧ Runs f' d' := by
  cases b with
  | chan a =>
    obtain ⟨hplain, hs⟩ := Option.ite_none_right_eq_some.mp hs
    obtain ⟨y, hy, rfl⟩ := Option.map_eq_some_iff.mp hs
    obtain ⟨d', hd, hruns⟩ := h.chan hg hplain hy
    exact ⟨d', Machine.run_cons.mpr ⟨d', hd, rfl⟩, hruns⟩
  | notify i => exact ⟨d, rfl, h.notify hg hs⟩
  | registerCv i =>
    obtain ⟨g, hstep, rfl⟩ := Option.map_eq_some_iff.mp hs
    refine ⟨d, rfl, h.called hg hstep rfl ?_⟩
    cases Spin.step_cases hstep with
    | registerCv =>
      intro j k pc hj
      left
      have hne : (Spin.Caller.notifier j : Spin.Caller ι ι) ≠ .awaiter i := by simp
      simp only [Spin.State.goto, Function.update_of_ne hne] at hj
      exact hj
  | act x => exact h.act hg hs

omit [DecidableEq ι] in
theorem Init.runs {s : State ι T} (h : Init cap s) : Runs s s.chan where
  rest := rfl
  follows := Spin.Init.follows (f := s.spin) ⟨h.chan.sync, h.lock, h.pos⟩
  call i k pc hpos := by
    rw [h.pos] at hpos
    cases hpos

theorem runs_of_run {s₀ s : State ι T} (h₀ : Init cap s₀)
    (hrun : (machine ι T cap).run s₀ bs = some s) :
    ∃ c, (Channel.machine ι T cap).run s₀.chan ((machine ι T cap).shown commits s₀ bs) = some c ∧
      Runs s c :=
  Machine.simulation (fun _ _ _ _ hc h hs => runs_step (sync_good hc) h hs) (.init h₀.chan) h₀.runs
    hrun

/-- Over the accesses a channel does what it does over atomic sections. -/
theorem sections_refine (cap : Nat) (s₀ s : State ι T) (bs : List (Label ι T))
    (h₀ : Init cap s₀) (hrun : (machine ι T cap).run s₀ bs = some s) :
    ∃ c, (Channel.machine ι T cap).run s₀.chan ((machine ι T cap).shown commits s₀ bs) = some c ∧
      c = { s.chan with sync := c.sync } ∧ Spin.Agrees s.spin c.sync := by
  obtain ⟨c, hc, h⟩ := runs_of_run h₀ hrun
  have hreach : (Channel.machine ι T cap).Reachable s₀.chan := .init h₀.chan
  exact ⟨c, hc, h.rest, h.follows.agrees (sync_good (hreach.run hc))⟩

def newState (buffer : Buffer T) : State ι T where
  chan := Channel.newState buffer
  lock _ := false
  pos _ := none

omit [DecidableEq ι] in
theorem init_newState {buffer : Buffer T} (h : buffer.Initial cap) :
    Init cap (newState buffer : State ι T) :=
  ⟨Channel.init_newState h, fun _ => rfl, fun _ => rfl⟩

/-- The coroutine `1` waits for a value.  The coroutine `0` has sent one and is
in the section of its `notify_one`, about to store the new `m_head`. -/
def notifying : List (Label Nat Nat) :=
  [.chan (.recv 1), .chan (.client 1), .chan (.registerLock 1 false),
    .chan (.registerLock 1 false), .chan (.enter 1), .chan (.client 1), .chan (.eval 1),
    .registerCv 1] ++ List.replicate 5 (.act (.awaiter 1)) ++
  [.chan (.unlock 1), .chan (.unlock 1), .chan (.send 0 5), .chan (.client 0),
    .chan (.registerLock 0 false), .chan (.registerLock 0 false), .chan (.enter 0),
    .chan (.client 0), .chan (.eval 0), .chan (.client 0), .chan (.client 0), .notify 0] ++
  List.replicate 4 (.act (.notifier 0))

theorem sections_refine_notifying :
    ∃ s, (machine Nat Nat 2).run (newState (.masked 0 0 fun _ => 0)) notifying = some s ∧
      s.chan.log = [.sendTrue 5] ∧
      s.pos (.notifier 0) = some (.consumer, .storeNextHead 1 none) ∧
      ∃ c, (Channel.machine Nat Nat 2).run (Channel.newState (.masked 0 0 fun _ => 0))
          ((machine Nat Nat 2).shown commits (newState (.masked 0 0 fun _ => 0)) notifying) =
            some c ∧
        c = { s.chan with sync := c.sync } ∧ Spin.Agrees s.spin c.sync := by
  have hrun : ((machine Nat Nat 2).run (newState (.masked 0 0 fun _ => 0)) notifying).map
      (fun s => decide (s.chan.log = [.sendTrue 5] ∧
        s.pos (.notifier 0) = some (.consumer, .storeNextHead 1 none))) = some true := by
    decide
  have hinit : Init 2 (newState (.masked 0 0 fun _ => 0) : State Nat Nat) :=
    init_newState ⟨⟨1, by decide, rfl⟩, rfl, rfl⟩
  obtain ⟨s, hs, htest⟩ := Option.map_eq_some_iff.mp hrun
  obtain ⟨hlog, hpos⟩ := of_decide_eq_true htest
  exact ⟨s, hs, hlog, hpos, sections_refine 2 _ s notifying hinit hs⟩

end SheepCoro.Channel.Sections
