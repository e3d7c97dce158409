import SheepCoro.Channel.Sections

/-!
# No notification of a channel gets stuck

A coroutine at a `notify_one` or a `notify_all` of a channel can enter its
section (`notify_enabled`): it is in no loop of a `notify_all` at the same
time.  The accesses then are those of `SheepCoro.Spin` (`acts_lift`), so it
comes to the line behind the notification (`notification_passes`).
-/

namespace SheepCoro.Channel.Sections

open Lib

variable {ι T : Type} [DecidableEq ι] {cap : Nat} {i j : ι}

/-- In a loop of `close`. -/
def loops : Pc T → Bool
  | .closeProducerLoop | .closeConsumerLoop => true
  | _ => false

/-- Only who is in a loop of `close` has somebody to wake. -/
def Idle (s : Channel.State ι T) : Prop :=
  ∀ i, loops (s.pc i) = false → s.sync.curHead i = none

section Idle

variable {s s' : Channel.State ι T} {a : Channel.Label ι T} {l : Sync.Label ι Cv ι}

theorem notifyOne_curHead {y : Sync.State ι Cv ι} {k : Cv} :
    (Sync.notifyOne y k).curHead = y.curHead := by
  unfold Sync.notifyOne
  split <;> rfl

theorem registerCv_curHead {y : Sync.State ι Cv ι} {k : Cv} :
    (Sync.registerCv y i k).curHead = y.curHead := by
  cases htail : y.cvTail k with
  | none =>
    rw [Spin.registerCv_empty htail]
    rfl
  | some t =>
    rw [Spin.registerCv_behind htail]
    rfl

/-- Only `notify_all` gives its caller somebody to wake. -/
theorem curHead_none {y y' : Sync.State ι Cv ι} (hs : Sync.step y l = some y')
    (hl : ∀ k, l ≠ .notifyAll i k) (hi : y.curHead i = none) : y'.curHead i = none := by
  cases l with
  | registerCv j =>
    simp only [Sync.step] at hs
    split at hs
    · cases hs
      rw [registerCv_curHead]
      exact hi
    · cases hs
  | notifyOne k =>
    cases hs
    rw [notifyOne_curHead]
    exact hi
  | notifyAll m k =>
    obtain ⟨-, ⟨⟩⟩ := Option.ite_none_right_eq_some.mp hs
    have hne : i ≠ m := by
      rintro rfl
      exact hl k rfl
    exact (Function.update_of_ne hne ..).trans hi
  | reuse j p =>
    obtain ⟨-, ⟨⟩⟩ := Option.ite_none_right_eq_some.mp hs
    exact hi
  | _ =>
    obtain ⟨n', -, hgrafts⟩ :=
      Spin.step_graft (n := y.next) (h := y.cvHead) (t := y.cvTail) rfl hs fun _ _ => rfl
    exact hgrafts.curHead i hi

theorem Idle.onSync (h : Idle s) (hs : s.onSync l = some s')
    (hl : ∀ i k, loops (s.pc i) = false → l ≠ .notifyAll i k) : Idle s' := by
  obtain ⟨y, hy, rfl⟩ := onSync_eq_some.mp hs
  intro i hi
  exact curHead_none hy (fun k => hl i k hi) (h i hi)

/-- A coroutine that is in no loop moves. -/
theorem Idle.goto (h : Idle s) {p : Pc T} (hj : loops (s.pc j) = false ∨ s.sync.curHead j = none) :
    Idle (s.goto j p) := by
  intro i hi
  by_cases hij : i = j
  · subst hij
    rcases hj with hloop | hnone
    · exact h i hloop
    · exact hnone
  · apply h i
    have hp : (s.goto j p).pc i = s.pc i := Function.update_of_ne hij ..
    rwa [hp] at hi

/-- A coroutine that is in no loop takes a step of the mutex and moves. -/
theorem Idle.onSync_goto {p : Pc T} (h : Idle s)
    (hs : (s.onSync l).map (fun u => u.goto j p) = some s')
    (hl : ∀ i k, loops (s.pc i) = false → l ≠ .notifyAll i k) (hj : loops (s.pc j) = false) :
    Idle s' := by
  obtain ⟨u, hu, rfl⟩ := Option.map_eq_some_iff.mp hs
  refine (h.onSync hu hl).goto (.inl ?_)
  rw [onSync_pc hu]
  exact hj

/-- A coroutine calls `notify_all` and is in its loop. -/
theorem Idle.notifyAll {p : Pc T} {k : Cv} (h : Idle s)
    (hs : (s.onSync (.notifyAll j k)).map (fun u => u.goto j p) = some s')
    (hp : loops p = true) : Idle s' := by
  obtain ⟨u, hu, rfl⟩ := Option.map_eq_some_iff.mp hs
  obtain ⟨y, hy, rfl⟩ := onSync_eq_some.mp hu
  intro i hi
  have hij : i ≠ j := by
    rintro rfl
    have hpc : (({ s with sync := y } : Channel.State ι T).goto i p).pc i = p :=
      Function.update_self ..
    rw [hpc, hp] at hi
    cases hi
  refine curHead_none hy ?_ (h i ?_)
  · rintro k' ⟨⟩
    exact hij rfl
  · have hpc : (({ s with sync := y } : Channel.State ι T).goto j p).pc i = s.pc i :=
      Function.update_of_ne hij ..
    rwa [hpc] at hi

theorem Idle.notifyNext (h : Idle s) (hs : s.onSync (.notifyNext j) = some s') : Idle s' :=
  h.onSync hs fun _ _ _ => by simp

theorem Idle.client (h : Idle s) (hs : clientStep cap s j (s.pc j) = some s') : Idle s' := by
  cases hp : s.pc j with
  | idle =>
    rw [hp] at hs
    cases hs
  | sendStore | recvTake | recvComplete | closeStore =>
    rw [hp] at hs
    cases hs
    have hj : loops (s.pc j) = false := congrArg loops hp
    exact h.goto (.inl hj)
  | sendLock | recvLock | unlock | sendNotify | recvNotify =>
    rw [hp] at hs
    simp only [clientStep] at hs
    have hj : loops (s.pc j) = false := congrArg loops hp
    exact h.onSync_goto hs (fun _ _ _ => by simp) hj
  | sendStart | recvStart =>
    rw [hp] at hs
    simp only [clientStep] at hs
    have hj : loops (s.pc j) = false := congrArg loops hp
    split_ifs at hs
    · cases hs
      exact h.goto (.inl hj)
    · exact h.onSync_goto hs (fun _ _ _ => by simp) hj
  | sendWait | recvWait =>
    rw [hp] at hs
    simp only [clientStep] at hs
    have hj : loops (s.pc j) = false := congrArg loops hp
    split_ifs at hs
    · cases hs
      exact h.goto (.inl hj)
    · cases hs
      exact h.goto (.inl hj)
  | closeProducer | closeConsumer =>
    rw [hp] at hs
    simp only [clientStep] at hs
    exact h.notifyAll hs rfl
  | closeProducerLoop | closeConsumerLoop =>
    rw [hp] at hs
    simp only [clientStep] at hs
    split_ifs at hs with hnone
    · cases hs
      exact h.goto (.inr hnone)
    · exact h.notifyNext hs

theorem Idle.step (h : Idle s) (hs : Channel.step cap s a = some s') : Idle s' := by
  have hother : ∀ {l}, s.onSync l = some s' → (∀ i k, l ≠ .notifyAll i k) → Idle s' :=
    fun hon hl => h.onSync hon fun i k _ => hl i k
  cases a with
  | send j | recv j | close j =>
    obtain ⟨⟨hidle, -⟩, ⟨⟩⟩ := Option.ite_none_right_eq_some.mp hs
    refine h.goto (.inl ?_)
    cases hp : s.pc j with
    | idle => rfl
    | _ =>
      rw [hp] at hidle
      cases hidle
  | client j => exact h.client hs
  | eval j =>
    obtain ⟨value, -, hs⟩ := Option.bind_eq_some_iff.mp hs
    exact hother hs fun _ _ => by simp
  | registerLock | enter | registerCv | unlock | reuse => exact hother hs fun _ _ => by simp

theorem idle_of_reachable (hr : (Channel.machine ι T cap).Reachable s) : Idle s := by
  refine hr.invariant (I := Idle) ?_ fun _ _ _ _ h hs => h.step hs
  intro s h₀ i _
  exact h₀.sync.curHead i

end Idle

/-! ## The accesses of a section -/

section Accesses

variable {f f' : State ι T} {b : Label ι T} {bs : List (Label ι T)}
  {g : Spin.State ι Cv ι} {x y : Spin.Caller ι ι} {n : Nat}

theorem advance_spin : (f.advance x).spin = f.spin := by
  cases hpos : f.pos x with
  | none =>
    cases x with
    | awaiter i => rfl
    | notifier i =>
      rw [advance_notifier hpos]
      rfl
  | some p => rw [advance_of_some hpos]

/-- The accesses of another caller leave a coroutine where it is. -/
theorem advance_pc (hx : x ≠ .notifier i) : (f.advance x).chan.pc i = f.chan.pc i := by
  cases hpos : f.pos x with
  | none =>
    cases x with
    | awaiter j => rfl
    | notifier j =>
      have hij : i ≠ j := by
        rintro rfl
        exact hx rfl
      rw [advance_notifier hpos]
      exact Function.update_of_ne hij ..
  | some p => rw [advance_of_some hpos]

theorem act_lift (hs : Spin.step f.spin (.act x) = some g) :
    ∃ f', step cap f (.act x) = some f' ∧ f'.spin = g :=
  ⟨(f.withSpin g).advance x, congrArg (Option.map _) hs, advance_spin⟩

theorem spin_of_act (hs : step cap f (.act x) = some f') :
    Spin.step f.spin (.act x) = some f'.spin := by
  obtain ⟨g, hg, rfl⟩ := Option.map_eq_some_iff.mp hs
  rw [advance_spin]
  exact hg

/-- The accesses over a channel are those of `SheepCoro.Spin`. -/
theorem acts_lift
    (hrun : (Spin.machine ι Cv ι).run f.spin (List.replicate n (.act x)) = some g) :
    ∃ f', (machine ι T cap).run f (List.replicate n (.act x)) = some f' ∧ f'.spin = g := by
  induction n generalizing f with
  | zero =>
    cases hrun
    exact ⟨f, rfl, rfl⟩
  | succ n ih =>
    obtain ⟨v, hv, hrest⟩ := Machine.run_cons.mp hrun
    have hlift : ∃ u, step cap f (.act x) = some u ∧ u.spin = v := act_lift hv
    obtain ⟨u, hu, rfl⟩ := hlift
    obtain ⟨f', hf', hg⟩ := ih hrest
    exact ⟨f', Machine.run_cons.mpr ⟨u, hu, hf'⟩, hg⟩

/-- The accesses of another caller. -/
theorem acts_others (hrun : (machine ι T cap).run f (List.replicate n (.act x)) = some f')
    (hx : x ≠ .notifier i) :
    f'.chan.pc i = f.chan.pc i ∧ f'.pos (.notifier i) = f.pos (.notifier i) := by
  induction n generalizing f with
  | zero =>
    cases hrun
    exact ⟨rfl, rfl⟩
  | succ n ih =>
    obtain ⟨v, hv, hrest⟩ := Machine.run_cons.mp hrun
    obtain ⟨hpc, hpos⟩ := ih hrest
    have hact : step cap f (.act x) = some v := hv
    refine ⟨hpc.trans ?_, hpos.trans ?_⟩
    · obtain ⟨g, -, rfl⟩ := Option.map_eq_some_iff.mp hact
      exact advance_pc hx
    · cases Spin.step_cases (spin_of_act hact) with
      | act _ hstep => exact Spin.act_others hstep hx.symm

/-- A caller whose section is over is behind its notification. -/
theorem act_behind (hs : step cap f (.act (.notifier i)) = some f') :
    f'.chan.pc i =
      if (f'.pos (.notifier i)).isNone then behind (f.chan.pc i) else f.chan.pc i := by
  obtain ⟨g, -, rfl⟩ := Option.map_eq_some_iff.mp hs
  cases hg : g.pos (.notifier i) with
  | none =>
    have hnone : (f.withSpin g).pos (.notifier i) = none := hg
    rw [advance_notifier hnone, if_pos (by rw [hnone]; rfl)]
    exact Function.update_self ..
  | some p =>
    have hsome : (f.withSpin g).pos (.notifier i) = some p := hg
    rw [advance_of_some hsome, if_neg (by rw [hsome]; simp)]
    rfl

theorem acts_behind
    (hrun : (machine ι T cap).run f (List.replicate n (.act (.notifier i))) = some f')
    (hpos : f.pos (.notifier i) ≠ none) (hout : f'.pos (.notifier i) = none) :
    f'.chan.pc i = behind (f.chan.pc i) := by
  induction n generalizing f with
  | zero =>
    cases hrun
    exact absurd hout hpos
  | succ n ih =>
    obtain ⟨v, hv, hrest⟩ := Machine.run_cons.mp hrun
    have hact : step cap f (.act (.notifier i)) = some v := hv
    have hpc := act_behind hact
    cases hv' : v.pos (.notifier i) with
    | none =>
      rw [hv'] at hpc
      -- A caller without a position has no access to take.
      cases n with
      | zero =>
        cases hrest
        exact hpc
      | succ n =>
        obtain ⟨w, hw, -⟩ := Machine.run_cons.mp hrest
        have hstuck : step cap v (.act (.notifier i)) = some w := hw
        cases Spin.step_cases (spin_of_act hstuck) with
        | act hat _ =>
          have hnone : v.spin.pos (.notifier i) = none := hv'
          rw [hnone] at hat
          cases hat
    | some p =>
      rw [hv'] at hpc
      rw [ih hrest (by rw [hv']; simp), hpc]
      rfl

/-- The sections of a channel are in a state that `SheepCoro.Spin` reaches. -/
theorem spin_reachable (hr : (machine ι T cap).Reachable f) :
    (Spin.machine ι Cv ι).Reachable f.spin := by
  refine hr.invariant (I := fun f => (Spin.machine ι Cv ι).Reachable f.spin) ?_ ?_
  · intro f₀ h₀
    exact .init ⟨h₀.chan.sync, h₀.lock, h₀.pos⟩
  · intro f b f' _ h hs
    have hstep : step cap f b = some f' := hs
    cases b with
    | chan a =>
      obtain ⟨hplain, hs⟩ := Option.ite_none_right_eq_some.mp hstep
      obtain ⟨y, hy, rfl⟩ := Option.map_eq_some_iff.mp hs
      cases plain_over (t := f.chan.sync) hy hplain rfl rfl rfl with
      | alone hsync _ =>
        have hsame : ({ f with chan := y } : State ι T).spin = f.spin := by
          show ({ f.spin with sync := y.sync } : Spin.State ι Cv ι) = f.spin
          rw [hsync]
          rfl
        rw [hsame]
        exact h
      | sync houtside hsync _ =>
        refine h.next (a := .sync _) ((if_pos houtside).trans ?_)
        have hspin : Sync.step f.spin.sync _ = some y.sync := hsync
        rw [hspin]
        rfl
    | notify i =>
      obtain ⟨l, -, hs⟩ := Option.bind_eq_some_iff.mp hstep
      obtain ⟨g, hg, rfl⟩ := Option.map_eq_some_iff.mp hs
      exact h.next hg
    | registerCv i =>
      obtain ⟨g, hg, rfl⟩ := Option.map_eq_some_iff.mp hstep
      exact h.next (a := .registerCv i) hg
    | act x => exact h.next (a := .act x) (spin_of_act hstep)

end Accesses

/-! ## Every notification passes -/

section Passage

variable {f f' : State ι T} {bs : List (Label ι T)} {l : Spin.Label ι Cv ι}

omit [DecidableEq ι] in
theorem loops_of_call {p : Pc T} (h : call i p = some l) : loops p = false := by
  cases p with
  | closeProducerLoop | closeConsumerLoop => cases h
  | _ => rfl

/-- A coroutine at a notification can enter its section, since it has nobody
to wake. -/
theorem notify_enabled (h₀ : Init cap f) (hrun : (machine ι T cap).run f bs = some f')
    (hcall : call i (f'.chan.pc i) = some l) (hpos : f'.pos (.notifier i) = none) :
    ∃ u, step cap f' (.notify i) = some u ∧ u.chan.pc = f'.chan.pc ∧
      ∃ p, u.pos (.notifier i) = some p := by
  obtain ⟨c, hc, hruns⟩ := runs_of_run h₀ hrun
  have hstart : (Channel.machine ι T cap).Reachable f.chan := .init h₀.chan
  have hpc : c.pc = f'.chan.pc := by rw [hruns.rest]
  have hcur : f'.spin.sync.curHead i = none := by
    have hidle := idle_of_reachable (hstart.run hc) i (by rw [hpc]; exact loops_of_call hcall)
    rw [hruns.follows.graft] at hidle
    exact hidle
  have hcan : (f'.spin.pos (.notifier i)).isNone ∧ f'.spin.sync.curHead i = none :=
    ⟨Option.isNone_iff_eq_none.mpr hpos, hcur⟩
  have henter : ∃ k op,
      Spin.step f'.spin l = some (f'.spin.goto (.notifier i) k (.exchange op)) := by
    obtain ⟨k, rfl | rfl⟩ := call_eq hcall
    · exact ⟨k, .notifyOne, if_pos hcan⟩
    · exact ⟨k, .notifyAll, if_pos hcan⟩
  obtain ⟨k, op, hspin⟩ := henter
  refine ⟨f'.withSpin (f'.spin.goto (.notifier i) k (.exchange op)), ?_, rfl, _,
    Function.update_self ..⟩
  simp only [step, hcall, Option.bind_some, hspin, Option.map_some]

/-- The way of a coroutine out of its section. -/
theorem section_passes (hr : (machine ι T cap).Reachable f) {p : Cv × Spin.Pc ι}
    (hpos : f.pos (.notifier i) = some p) :
    ∃ z m n u, m + n ≤ 16 ∧ (machine ι T cap).run f
        (List.replicate m (.act z) ++ List.replicate n (.act (.notifier i))) = some u ∧
      u.chan.pc i = behind (f.chan.pc i) := by
  obtain ⟨z, m, n, g, hz, hmn, hg, hout, -⟩ := Spin.exists_way (spin_reachable hr) hpos
  obtain ⟨w, hw, hrest⟩ := Machine.run_append.mp hg
  have hfirst : ∃ v, (machine ι T cap).run f (List.replicate m (.act z)) = some v ∧
    v.spin = w := acts_lift hw
  obtain ⟨v, hv, rfl⟩ := hfirst
  have hsecond : ∃ u, (machine ι T cap).run v (List.replicate n (.act (.notifier i))) = some u ∧
    u.spin = g := acts_lift hrest
  obtain ⟨u, hu, rfl⟩ := hsecond
  have hkeep : v.chan.pc i = f.chan.pc i ∧ v.pos (.notifier i) = f.pos (.notifier i) := by
    rcases hz with hz | rfl
    · exact acts_others hv hz
    · cases hv
      exact ⟨rfl, rfl⟩
  refine ⟨z, m, n, u, hmn, Machine.run_append.mpr ⟨v, hv, hu⟩, ?_⟩
  rw [acts_behind hu (by rw [hkeep.2, hpos]; simp) hout, hkeep.1]

end Passage

/-- However the accesses fell so far, a coroutine at a notification of a channel
is behind it after its call and at most sixteen accesses, of one other caller
and of its own. -/
theorem notification_passes (cap : Nat) (s₀ s : State ι T) (bs : List (Label ι T)) (i : ι)
    (l : Spin.Label ι Cv ι) (h₀ : Init cap s₀) (hrun : (machine ι T cap).run s₀ bs = some s)
    (hcall : call i (s.chan.pc i) = some l) :
    ∃ z m n u, m + n ≤ 16 ∧ (machine ι T cap).run s
        ((if (s.pos (.notifier i)).isNone then [.notify i] else []) ++
          (List.replicate m (.act z) ++ List.replicate n (.act (.notifier i)))) = some u ∧
      u.chan.pc i = behind (s.chan.pc i) := by
  have hstart : (machine ι T cap).Reachable s₀ := .init h₀
  have hr := hstart.run hrun
  cases hpos : s.pos (.notifier i) with
  | none =>
    obtain ⟨v, hv, hpc, p, hp⟩ := notify_enabled h₀ hrun hcall hpos
    obtain ⟨z, m, n, u, hmn, hu, hbehind⟩ := section_passes (hr.next (a := .notify i) hv) hp
    rw [hpc] at hbehind
    exact ⟨z, m, n, u, hmn, Machine.run_cons.mpr ⟨v, hv, hu⟩, hbehind⟩
  | some p =>
    obtain ⟨z, m, n, u, hmn, hu, hbehind⟩ := section_passes hr hpos
    exact ⟨z, m, n, u, hmn, hu, hbehind⟩

/-- The notification of `0` passes. -/
theorem notification_passes_notifying :
    ∃ s, (machine Nat Nat 2).run (newState (.masked 0 0 fun _ => 0)) notifying = some s ∧
      call 0 (s.chan.pc 0) = some (.notifyOne 0 .consumer) ∧
      ∃ z m n u, m + n ≤ 16 ∧ (machine Nat Nat 2).run s
          ((if (s.pos (.notifier 0)).isNone then [.notify 0] else []) ++
            (List.replicate m (.act z) ++ List.replicate n (.act (.notifier 0)))) = some u ∧
        u.chan.pc 0 = behind (s.chan.pc 0) := by
  have hrun : ((machine Nat Nat 2).run (newState (.masked 0 0 fun _ => 0)) notifying).map
      (fun s => decide (s.chan.pc 0 = .sendNotify)) = some true := by
    decide
  have hinit : Init 2 (newState (.masked 0 0 fun _ => 0) : State Nat Nat) :=
    init_newState ⟨⟨1, by decide, rfl⟩, rfl, rfl⟩
  obtain ⟨s, hs, htest⟩ := Option.map_eq_some_iff.mp hrun
  have hcall : call 0 (s.chan.pc 0) = some (.notifyOne 0 .consumer) := by
    rw [of_decide_eq_true htest]
    rfl
  exact ⟨s, hs, hcall, notification_passes 2 _ s notifying 0 _ hinit hs hcall⟩

end SheepCoro.Channel.Sections
