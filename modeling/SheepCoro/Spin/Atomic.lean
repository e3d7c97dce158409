import SheepCoro.Spin.Refine
import SheepCoro.Lib.Simulation

/-!
# What the spinlock is for

`commits` is what a step shows to `Sync`: a section shows nothing until its
spinlock is released, and then one step.  So every run with the sections taken
apart is a run of `Sync` (`follows_run`), and what holds of the lists there
holds in memory whenever the spinlock is free.
-/

namespace SheepCoro.Spin

open Lib

open Sync (Good)

variable {ι κ ν : Type} [DecidableEq ι] [DecidableEq κ] [DecidableEq ν]
  {c : Sync.State ι κ ν} {f₀ f f' : State ι κ ν} {a : Label ι κ ν} {as : List (Label ι κ ν)}
  {x : Caller ι ν} {k : κ} {pc pc' : Pc ι}

/-- The step of `Sync` that a section is, when it ends at this position. -/
def Pc.commit (k : κ) : Caller ι ν → Pc ι → List (Sync.Label ι κ ν)
  | .awaiter i, .linked => [.registerCv i]
  | .notifier _, .taken _ => [.notifyOne k]
  | .notifier m, .emptied _ => [.notifyAll m k]
  | _, _ => []

def commits (s : State ι κ ν) : Label ι κ ν → List (Sync.Label ι κ ν)
  | .sync a => [a]
  | .act x => ((s.pos x).map fun p => p.2.commit p.1 x).getD []
  | _ => []

omit [DecidableEq ι] [DecidableEq κ] [DecidableEq ν] in
theorem Init.follows (h : Init f) : Follows f f.sync where
  graft := rfl
  guarded := by
    have hlock : f.lock = fun _ => false := funext h.lock
    have hpos : (fun x => insideOf (f.pos x)) = fun _ => none := by
      funext x
      rw [h.pos x]
      rfl
    rw [hlock, hpos]
    exact Guarded.init
  awaiter i k pc hpos := by
    rw [h.pos] at hpos
    cases hpos
  notifier m k pc hpos := by
    rw [h.pos] at hpos
    cases hpos
  next _ _ _ := rfl
  idle _ _ := ⟨rfl, rfl⟩
  view x k pc hpos := by
    rw [h.pos] at hpos
    cases hpos

omit [DecidableEq ν] in
/-- What is not the last access of a section commits nothing. -/
theorem commit_access {s : Sync.State ι κ ν} {r : Sync.State ι κ ν × Pc ι}
    (hs : access s k x pc = some r) : pc.commit k x = [] := by
  cases x <;> cases pc <;> first | rfl | cases hs

omit [DecidableEq ι] [DecidableEq κ] [DecidableEq ν] in
theorem commits_act (hpos : f.pos x = some (k, pc)) : commits f (.act x) = pc.commit k x := by
  simp only [commits, hpos, Option.map_some, Option.getD_some]

/-- The next access of a caller is a stutter, or the step of `Sync` that the
section is. -/
theorem Follows.act (h : Follows f c) (hg : Good c) (hpos : f.pos x = some (k, pc))
    (hs : ActCase f x k pc f') :
    ∃ c', (Sync.machine ι κ ν).run c (pc.commit k x) = some c' ∧ Follows f' c' := by
  have hcaller : ∀ {pc' : Pc ι}, pc.inside = false → pc'.inside = false →
      Follows (f.goto x k pc') c := by
    intro pc' hin hin'
    refine h.goto hin' ?_ ?_ ?_
    · intro k₀ pc₀ hx
      rw [hpos] at hx
      cases hx
      exact ⟨rfl, hin⟩
    · rintro i rfl
      exact h.awaiter i k pc hpos
    · rintro m rfl
      exact h.notifier m k pc hpos
  cases hs with
  | busy hlock => exact ⟨c, by cases x <;> rfl, hcaller rfl rfl⟩
  | enter hlock => exact ⟨c, by cases x <;> rfl, h.enter hpos hlock⟩
  | spin hlock => exact ⟨c, by cases x <;> rfl, h⟩
  | retry hlock => exact ⟨c, by cases x <;> rfl, hcaller rfl rfl⟩
  | access hin haccess =>
    rw [commit_access haccess]
    exact ⟨c, rfl, h.access hg hpos hin haccess⟩
  | unlock hin hunlock =>
    cases x with
    | awaiter i =>
      cases pc with
      | linked =>
        cases hunlock
        obtain ⟨hstep, hnext⟩ := h.unlock_registerCv hg hpos
        exact ⟨_, Machine.run_cons.mpr ⟨_, hstep, rfl⟩, hnext⟩
      | _ => cases hunlock
    | notifier m =>
      cases pc with
      | taken p =>
        cases hunlock
        exact ⟨_, Machine.run_cons.mpr ⟨_, rfl, rfl⟩, h.unlock_notifyOne hg hpos⟩
      | emptied p =>
        cases hunlock
        obtain ⟨hstep, hnext⟩ := h.unlock_notifyAll hg hpos
        exact ⟨_, Machine.run_cons.mpr ⟨_, hstep, rfl⟩, hnext⟩
      | _ => cases hunlock

theorem follows_step (hg : Good c) (h : Follows f c) (hs : step f a = some f') :
    ∃ c', (Sync.machine ι κ ν).run c (commits f a) = some c' ∧ Follows f' c' := by
  cases step_cases hs with
  | sync houtside hsync =>
    obtain ⟨c', hstep, hnext⟩ := h.sync hg houtside hsync
    exact ⟨c', Machine.run_cons.mpr ⟨c', hstep, rfl⟩, hnext⟩
  | registerCv hhold hkind hpos => exact ⟨c, rfl, h.registerCv hg hhold hkind hpos⟩
  | @notifyOne m k hpos hcur | @notifyAll m k hpos hcur =>
    refine ⟨c, rfl, h.goto rfl ?_ ?_ ?_⟩
    · intro k₀ pc hx
      rw [hpos] at hx
      cases hx
    · rintro i ⟨⟩
    · rintro m' ⟨⟩
      exact hcur
  | @act x k pc _ hpos hact =>
    rw [commits_act hpos]
    exact h.act hg hpos hact

/-- A run with the sections taken apart is a run of `Sync`. -/
theorem follows_run (h₀ : Init f₀) (hrun : (machine ι κ ν).run f₀ as = some f) :
    ∃ c, (Sync.machine ι κ ν).run f₀.sync ((machine ι κ ν).shown commits f₀ as) = some c ∧
      Follows f c :=
  Machine.simulation (fun _ _ _ _ hc h hs => follows_step (Sync.good_of_reachable hc) h hs)
    (.init h₀.sync) h₀.follows hrun

/-- The awaiter whose section in the list of `k` is over with a step. -/
def parks (k : κ) (s : State ι κ ν) : Label ι κ ν → List ι
  | .act (.awaiter i) => if s.pos (.awaiter i) = some (k, .linked) then [i] else []
  | _ => []

omit [DecidableEq ν] in
theorem linked_outside {a : Sync.Label ι κ ν} (houtside : outside f.sync a = true) :
    Sync.linked k c a = [] := by
  cases a with
  | registerCv i => cases houtside
  | _ => rfl

/-- `Sync` links an awaiter when its section is over. -/
theorem linked_commits (hg : Good c) (h : Follows f c) (hs : step f a = some f') (k₀ : κ) :
    (Sync.machine ι κ ν).shown (Sync.linked k₀) c (commits f a) = parks k₀ f a := by
  obtain ⟨c', hrun, -⟩ := follows_step hg h hs
  have hone : ∀ {b}, commits f a = [b] →
      (Sync.machine ι κ ν).shown (Sync.linked k₀) c (commits f a) = Sync.linked k₀ c b := by
    intro b hb
    rw [hb] at hrun ⊢
    obtain ⟨u, hu, -⟩ := Machine.run_cons.mp hrun
    simp only [Machine.shown, hu, List.append_nil]
  cases step_cases hs with
  | @sync a _ houtside hsync => exact (hone rfl).trans (linked_outside houtside)
  | registerCv | notifyOne | notifyAll => rfl
  | @act x k pc _ hpos hact =>
    have hcommits := commits_act hpos
    cases x with
    | notifier m =>
      cases pc with
      | taken p => exact hone hcommits
      | emptied p => exact hone hcommits
      | _ =>
        rw [hcommits]
        rfl
    | awaiter i =>
      have hparks : parks k₀ f (.act (.awaiter i)) =
          if (k, pc) = (k₀, .linked) then [i] else [] := by
        simp only [parks, hpos, Option.some.injEq]
      rw [hparks]
      cases pc with
      | linked =>
        obtain ⟨-, ⟨hasCond, hkind⟩, -⟩ := h.awaiter i k _ hpos
        have hkind' : c.kind i = .cvAwaiter k hasCond := by
          rw [h.graft]
          exact hkind
        rw [hone hcommits]
        simp only [Sync.linked, hkind', Prod.mk.injEq, and_true]
      | _ =>
        rw [hcommits, if_neg (by simp)]
        rfl

/-- What `f` has of the state `c` of `Sync` that comes of it. -/
structure Agrees (f : State ι κ ν) (c : Sync.State ι κ ν) : Prop where
  /-- All but `m_head`, `m_tail` and the links. -/
  core : c = graft f.sync c.next c.cvHead c.cvTail
  list : ∀ k, f.lock k = false → f.sync.cvHead k = c.cvHead k ∧ f.sync.cvTail k = c.cvTail k
  link : ∀ i, f.sync.hold i ≠ .registerCv →
    (∀ k, f.sync.loc i = .parked k → f.lock k = false) → f.sync.next i = c.next i
  exclusion : ∀ x y k pc pc', f.pos x = some (k, pc) → f.pos y = some (k, pc') →
    pc.inside = true → pc'.inside = true → x = y

omit [DecidableEq ι] [DecidableEq κ] [DecidableEq ν] in
theorem Follows.agrees (hg : Good c) (h : Follows f c) : Agrees f c where
  core := h.graft
  list k hk := ⟨(h.idle k hk).head, (h.idle k hk).tail⟩
  link := by
    intro i hi hfree
    apply h.next i hi
    intro x k pc hpos hties ht
    have hparked : f.sync.loc i = .parked k := h.loc i ▸ tail_parked hg ht
    have houtside := h.outside (hfree k hparked) hpos
    rw [Pc.ties_inside hties] at houtside
    cases houtside
  exclusion := by
    intro x y k pc pc' hx hy hin hin'
    exact h.alone hy hin' hx hin

/-- Whoever may interleave, the sections are as good as atomic. -/
theorem sections_atomic (f₀ f : State ι κ ν) (as : List (Label ι κ ν)) (h₀ : Init f₀)
    (hrun : (machine ι κ ν).run f₀ as = some f) :
    ∃ c, (Sync.machine ι κ ν).run f₀.sync ((machine ι κ ν).shown commits f₀ as) = some c ∧
      Agrees f c := by
  obtain ⟨c, hc, h⟩ := follows_run h₀ hrun
  have hreach : (Sync.machine ι κ ν).Reachable f₀.sync := .init h₀.sync
  exact ⟨c, hc, h.agrees (Sync.good_of_reachable (hreach.run hc))⟩

def spinState : State Nat Unit Unit where
  sync := Sync.emptyState
  lock _ := false
  pos _ := none

theorem init_spinState : Init spinState :=
  ⟨Sync.init_emptyState, fun _ => rfl, fun _ => rfl⟩

/-- The second waiter has stored the link of the first one, but not `m_tail`,
while a caller of `notify_one` spins. -/
def halfLinked : List (Label Nat Unit Unit) :=
  [.sync (.tryLock 0), .sync (.wait 0 () true), .sync (.eval 0 false), .registerCv 0] ++
    List.replicate 5 (.act (.awaiter 0)) ++
    [.sync (.unlock 0), .sync (.unlock 0), .sync (.tryLock 1), .sync (.wait 1 () true),
      .sync (.eval 1 false), .registerCv 1, .notifyOne () ()] ++
    List.replicate 4 (.act (.awaiter 1)) ++ List.replicate 2 (.act (.notifier ()))

/-- The list of `Sync` still has the first waiter only. -/
theorem sections_atomic_half_linked :
    ∃ f, (machine Nat Unit Unit).run spinState halfLinked = some f ∧ f.sync.next 0 = some 1 ∧
      f.pos (.notifier ()) = some ((), .load .notifyOne) ∧
      ∃ c, (Sync.machine Nat Unit Unit).run Sync.emptyState
          ((machine Nat Unit Unit).shown commits spinState halfLinked) = some c ∧
        Agrees f c ∧ c.loc 1 = .none := by
  have hrun : ((machine Nat Unit Unit).run spinState halfLinked).map (fun f =>
      decide (f.sync.next 0 = some 1 ∧ f.pos (.notifier ()) = some ((), .load .notifyOne) ∧
        f.sync.loc 1 = .none)) = some true := by decide
  obtain ⟨f, hf, htest⟩ := Option.map_eq_some_iff.mp hrun
  obtain ⟨hnext, hpos, hloc⟩ := of_decide_eq_true htest
  obtain ⟨c, hc, h⟩ := sections_atomic spinState f halfLinked init_spinState hf
  refine ⟨f, hf, hnext, hpos, c, hc, h, ?_⟩
  rw [h.core]
  exact hloc

/-- Whenever the spinlock of a condition variable is free, its list is whole in
memory: the waiters in the order in which their sections were over. -/
theorem list_whole (f₀ f : State ι κ ν) (as : List (Label ι κ ν)) (k : κ) (h₀ : Init f₀)
    (hrun : (machine ι κ ν).run f₀ as = some f) (hfree : f.lock k = false) :
    ∃ xs, Chain f.sync.next (f.sync.cvHead k) xs ∧ f.sync.cvTail k = xs.getLast? ∧
      (∀ i, i ∈ xs ↔ f.sync.loc i = .parked k) ∧
      xs <:+ (machine ι κ ν).shown (parks k) f₀ as := by
  obtain ⟨c, hc, h⟩ := follows_run h₀ hrun
  have hreach : (Sync.machine ι κ ν).Reachable f₀.sync := .init h₀.sync
  have hg := Sync.good_of_reachable (hreach.run hc)
  have hagrees := h.agrees hg
  obtain ⟨q, hq, hlined⟩ := Sync.lined_run h₀.sync hc
  have hmem : ∀ i, i ∈ q.waiters k ↔ f.sync.loc i = .parked k := by
    intro i
    rw [hq.mem_waiters, h.loc]
  refine ⟨q.waiters k, ?_, ?_, hmem, ?_⟩
  · rw [(hagrees.list k hfree).1]
    refine (hq.cv_chain k).congr ?_
    intro i hi
    apply hagrees.link i
    · intro hhold
      have hloc := h.registering hg hhold
      rw [hq.mem_waiters.mp hi] at hloc
      cases hloc
    · intro k' hk'
      rw [(hmem i).mp hi] at hk'
      cases hk'
      exact hfree
  · rw [(hagrees.list k hfree).2]
    obtain ⟨o, stack, resume, line, hinv, -⟩ := hq
    exact hinv.links.cv_tail k
  · have hsame : Sync.registered k f₀.sync ((machine ι κ ν).shown commits f₀ as) =
        (machine ι κ ν).shown (parks k) f₀ as := Machine.shown_simulation
      (fun _ _ _ _ hc h hs => follows_step (Sync.good_of_reachable hc) h hs)
      (fun _ _ _ _ hc h hs => linked_commits (Sync.good_of_reachable hc) h hs k)
      hreach h₀.follows hrun
    rw [← hsame]
    exact hlined.waiters k

theorem list_whole_two_waiters :
    ∃ f, (machine Nat Unit Unit).run spinState
        (halfLinked ++ List.replicate 2 (.act (.awaiter 1))) = some f ∧
      ∃ xs, Chain f.sync.next (f.sync.cvHead ()) xs ∧ xs = [0, 1] ∧
        xs <:+ (machine Nat Unit Unit).shown (parks ()) spinState
          (halfLinked ++ List.replicate 2 (.act (.awaiter 1))) := by
  have hrun : ((machine Nat Unit Unit).run spinState
      (halfLinked ++ List.replicate 2 (.act (.awaiter 1)))).map (fun f =>
      decide (f.lock () = false ∧ f.sync.cvHead () = some 0 ∧ f.sync.next 0 = some 1 ∧
        f.sync.next 1 = none)) = some true := by decide
  obtain ⟨f, hf, htest⟩ := Option.map_eq_some_iff.mp hrun
  obtain ⟨hlock, hhead, hnext, hlast⟩ := of_decide_eq_true htest
  obtain ⟨xs, hxs, -, -, horder⟩ := list_whole spinState f _ () init_spinState hf hlock
  have hchain : Chain f.sync.next (f.sync.cvHead ()) [0, 1] := ⟨hhead, hnext, hlast⟩
  exact ⟨f, hf, xs, hxs, hxs.unique hchain, horder⟩

end SheepCoro.Spin
