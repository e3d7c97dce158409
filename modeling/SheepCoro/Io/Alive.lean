import SheepCoro.Context.Standalone
import SheepCoro.Io.Awaiters
import Mathlib.Data.List.ReduceOption

/-!
# Every completion finds its awaiter

`Matched` says that the lists of entries and coroutines are the ones that the
context counts, and `Followed` what a step of the context does to them.  With
that, `Awaiters` holds in every state that a run reaches in which the callers
keep what they promise.

From this, the callback that `handle_cqe_entry` calls finds the awaiter of its
own operation, alive and awaited, and the coroutine that it submits reads a
result that was written (`completion_finds_awaiter`).
-/

namespace SheepCoro.Io

open Lib

open scoped List

variable {cfg : Context.Config} {s s' : State}

/-- The completions that this `poll_submit` has handled. -/
def handledAt : Context.Pc → Nat
  | .handle left num => num - left
  | _ => 0

def State.unhandled (s : State) : List Cqe :=
  s.cq.drop (handledAt s.ctx.pc)

/-- The entries whose callback was not called yet. -/
def State.waiting (s : State) : List Entry :=
  s.sq ++ s.inflight ++ s.unhandled.map Cqe.toEntry

/-- The coroutines that are in the task queue or run. -/
def State.tokens (s : State) : List Nat :=
  s.ctx.taskQueue ++ s.cur.reduceOption

/-! ## The steps of the context -/

/-- The entries and the coroutines are those that the context counts. -/
structure Matched (s : State) : Prop where
  sq : s.sq.length = s.ctx.sq
  inflight : s.inflight.length = s.ctx.inflight
  cq : s.cq.length = s.ctx.cq
  cur : s.cur.length = s.ctx.calls.length

/-- What a step of the context does to the entries and the coroutines: they
go from one place to the next, and at most one coroutine is submitted. -/
structure Followed (s s' : State) : Prop where
  matched : Matched s'
  ring : s'.sq ++ s'.inflight ~ s.sq ++ s.inflight
  unhandled : s'.unhandled = s.unhandled
  tokens : s'.tokens ~ s.tokens ∨ ∃ h, s.idle h ∧ s'.tokens ~ h :: s.tokens

section Follow

variable {ctx : Context.State} {a : Context.Label}

theorem follow_frame (cfg : Context.Config) (s : State) (a : Context.Label) :
    (s.follow cfg a).mem = s.mem ∧ (s.follow cfg a).susp = s.susp ∧
    (s.follow cfg a).loose = s.loose ∧ (s.follow cfg a).made = s.made := by
  unfold State.follow State.enter State.take
  split
  · split
    · exact ⟨rfl, rfl, rfl, rfl⟩
    · split <;> exact ⟨rfl, rfl, rfl, rfl⟩
    · exact ⟨rfl, rfl, rfl, rfl⟩
    · exact ⟨rfl, rfl, rfl, rfl⟩
  · exact ⟨rfl, rfl, rfl, rfl⟩
  · split <;> exact ⟨rfl, rfl, rfl, rfl⟩
  · exact ⟨rfl, rfl, rfl, rfl⟩
  · exact ⟨rfl, rfl, rfl, rfl⟩

/-- The context changes, and not in what is counted. -/
theorem Matched.quiet (h : Matched s) (hsq : ctx.sq = s.ctx.sq)
    (hinflight : ctx.inflight = s.ctx.inflight) (hcq : ctx.cq = s.ctx.cq)
    (hcalls : ctx.calls = s.ctx.calls) (hqueue : ctx.taskQueue = s.ctx.taskQueue)
    (hhandled : handledAt ctx.pc = handledAt s.ctx.pc) : Followed s { s with ctx } where
  matched := ⟨h.sq.trans hsq.symm, h.inflight.trans hinflight.symm, h.cq.trans hcq.symm,
    h.cur.trans (congrArg List.length hcalls.symm)⟩
  ring := List.Perm.refl _
  unhandled := by
    unfold State.unhandled
    rw [hhandled]
  tokens := by
    unfold State.tokens
    rw [hqueue]
    exact .inl (List.Perm.refl _)

/-- The kernel takes entries. -/
theorem Matched.take {num : Nat} (h : Matched s) (hnum : num ≤ s.ctx.sq)
    (hsq : ctx.sq = s.ctx.sq - num) (hinflight : ctx.inflight = s.ctx.inflight + num)
    (hcq : ctx.cq = s.ctx.cq) (hcalls : ctx.calls = s.ctx.calls)
    (hqueue : ctx.taskQueue = s.ctx.taskQueue)
    (hhandled : handledAt ctx.pc = handledAt s.ctx.pc) :
    Followed s { s.take num with ctx } where
  matched := by
    have hlen := h.sq
    refine ⟨?_, ?_, h.cq.trans hcq.symm, h.cur.trans (congrArg List.length hcalls.symm)⟩
    · show (s.sq.drop num).length = ctx.sq
      rw [List.length_drop, hlen, hsq]
    · show (s.inflight ++ s.sq.take num).length = ctx.inflight
      rw [List.length_append, List.length_take, h.inflight, hinflight]
      omega
  ring := by
    calc s.sq.drop num ++ (s.inflight ++ s.sq.take num)
        ~ (s.inflight ++ s.sq.take num) ++ s.sq.drop num := List.perm_append_comm
      _ = s.inflight ++ (s.sq.take num ++ s.sq.drop num) := List.append_assoc ..
      _ = s.inflight ++ s.sq := by rw [List.take_append_drop]
      _ ~ s.sq ++ s.inflight := List.perm_append_comm
  unhandled := by
    show s.cq.drop (handledAt ctx.pc) = s.cq.drop (handledAt s.ctx.pc)
    rw [hhandled]
  tokens := by
    show ctx.taskQueue ++ s.cur.reduceOption ~ s.tokens ∨ _
    rw [hqueue]
    exact .inl (List.Perm.refl _)

theorem submitTask_entries (cfg : Context.Config) (c : Context.State) (x : Nat) :
    (c.submitTask cfg x).sq = c.sq ∧ (c.submitTask cfg x).inflight = c.inflight ∧
      (c.submitTask cfg x).cq = c.cq ∧ (c.submitTask cfg x).pc = c.pc := by
  unfold Context.State.submitTask
  split_ifs <;> exact ⟨rfl, rfl, rfl, rfl⟩

theorem enter_entries (cfg : Context.Config) (s : State) (x : Nat) :
    (s.enter cfg x).sq = s.sq ∧ (s.enter cfg x).inflight = s.inflight ∧
      (s.enter cfg x).cq = s.cq := by
  unfold State.enter
  split_ifs <;> exact ⟨rfl, rfl, rfl⟩

/-- "the recursive depth exceed limit, so the task will be discard" -/
def State.discards (cfg : Context.Config) (s : State) : Prop :=
  cfg.queCap ≤ s.ctx.taskQueue.length ∧ cfg.maxRecursiveDepth ≤ s.ctx.recursiveDepth

instance (cfg : Context.Config) (s : State) : Decidable (s.discards cfg) :=
  inferInstanceAs (Decidable (_ ∧ _))

/-- A handle is submitted on the worker's thread: it goes into the queue, or
is executed, or is discarded. -/
theorem Matched.enter (h : Matched s) (cfg : Context.Config) (p : Context.Pc) (x : Nat) :
    (s.enter cfg x).cur.length = ((s.ctx.goto p).submitTask cfg x).calls.length ∧
      if s.discards cfg then
        ((s.ctx.goto p).submitTask cfg x).taskQueue ++ (s.enter cfg x).cur.reduceOption = s.tokens
      else
        ((s.ctx.goto p).submitTask cfg x).taskQueue ++ (s.enter cfg x).cur.reduceOption ~
          x :: s.tokens := by
  unfold State.enter Context.State.submitTask State.tokens State.discards
  by_cases hroom : s.ctx.taskQueue.length < cfg.queCap
  · have hnot : ¬ cfg.queCap ≤ s.ctx.taskQueue.length := Nat.not_le.mpr hroom
    simp only [Context.State.goto, hroom, hnot, true_or, false_and, if_true, if_false]
    refine ⟨h.cur, ?_⟩
    rw [List.append_assoc]
    exact List.perm_middle
  · have hfull : cfg.queCap ≤ s.ctx.taskQueue.length := Nat.not_lt.mp hroom
    by_cases hdeep : cfg.maxRecursiveDepth ≤ s.ctx.recursiveDepth
    · simp only [Context.State.goto, hroom, hfull, hdeep, or_true, and_self, if_true, if_false]
      exact ⟨h.cur, trivial⟩
    · simp only [Context.State.goto, hroom, hdeep, or_self, and_false, if_false]
      refine ⟨congrArg (· + 1) h.cur, ?_⟩
      rw [List.reduceOption_cons_of_some]
      exact List.perm_middle

theorem mem_tokens {h : Nat} : h ∈ s.tokens ↔ h ∈ s.ctx.taskQueue ∨ some h ∈ s.cur := by
  unfold State.tokens
  rw [List.mem_append, List.reduceOption_mem_iff]

theorem not_mem_tokens {h : Nat} (hidle : s.idle h) : h ∉ s.tokens := by
  rw [mem_tokens, not_or]
  exact ⟨hidle.1, hidle.2.1⟩

/-- The worker goes on in its loop. -/
theorem Matched.run {num : Nat} (h : Matched s) (hloop : s.ctx.inLoop)
    (hs : Context.runStep cfg s.ctx num s.ctx.pc = some ctx) :
    Followed s { s.follow cfg (.run num) with ctx } := by
  have hcur : s.cur = [] := by
    apply List.eq_nil_of_length_eq_zero
    rw [h.cur, hloop.1]
    rfl
  by_cases hsubmit : s.ctx.pc = .doIoSubmit
  · rw [hsubmit] at hs
    simp only [Context.runStep] at hs
    have hfollow : s.follow cfg (.run num) =
        if 0 < s.ctx.numIoWaitSubmit then s.take num else s := by
      unfold State.follow
      rw [hsubmit]
    rw [hfollow]
    split_ifs at hs with hsome hnum
    · cases hs
      rw [if_pos hsome]
      exact h.take hnum rfl rfl rfl rfl rfl (congrArg handledAt hsubmit).symm
    · cases hs
      rw [if_neg hsome]
      exact h.quiet rfl rfl rfl rfl rfl (congrArg handledAt hsubmit).symm
  -- Between the other positions only a pop and the end of a batch count.
  have hstay : (∀ left, s.ctx.pc ≠ .work (left + 1)) → (∀ left n, s.ctx.pc ≠ .handle left n) →
      s.follow cfg (.run num) = s := by
    intro hwork hhandle
    simp only [State.follow]
  have hquiet : ∀ {c : Context.State} {p : Context.Pc}, s.ctx.pc = p →
      (∀ left, p ≠ .work (left + 1)) → (∀ left n, p ≠ .handle left n) → c.sq = s.ctx.sq →
      c.inflight = s.ctx.inflight → c.cq = s.ctx.cq → c.calls = s.ctx.calls →
      c.taskQueue = s.ctx.taskQueue → handledAt c.pc = handledAt p →
      Followed s { s.follow cfg (.run num) with ctx := c } := by
    intro c p hp hwork hhandle hsq hinflight hcq hcalls hqueue hhandled
    rw [hstay (hp ▸ hwork) (hp ▸ hhandle)]
    exact h.quiet hsq hinflight hcq hcalls hqueue (hp ▸ hhandled)
  cases Context.runStep_cases hs with
  | exit hp => exact hquiet hp (by simp) (by simp) rfl rfl rfl rfl rfl rfl
  | enter hp => exact hquiet hp (by simp) (by simp) rfl rfl rfl rfl rfl rfl
  | sample hp => exact hquiet hp (by simp) (by simp) rfl rfl rfl rfl rfl rfl
  | worked hp => exact hquiet hp (by simp) (by simp) rfl rfl rfl rfl rfl rfl
  | empty hp => exact hquiet hp (by simp) (by simp) rfl rfl rfl rfl rfl rfl
  | waits hp => exact hquiet hp (by simp) (by simp) rfl rfl rfl rfl rfl rfl
  | idle hp => exact hquiet hp (by simp) (by simp) rfl rfl rfl rfl rfl rfl
  | back hp => exact hquiet hp (by simp) (by simp) rfl rfl rfl rfl rfl rfl
  | stopped hp => exact hquiet hp (by simp) (by simp) rfl rfl rfl rfl rfl rfl
  | stopSelf hp => exact hquiet hp (by simp) (by simp) rfl rfl rfl rfl rfl rfl
  | stopWake hp hu =>
    obtain ⟨c, _, rfl⟩ := Context.wakeUp_frame hu
    exact hquiet hp (by simp) (by simp) rfl rfl rfl rfl rfl rfl
  | submit hp => exact absurd hp hsubmit
  | submitNone hp => exact absurd hp hsubmit
  | readCqe hp => exact hquiet hp (by simp) (by simp) rfl rfl rfl rfl rfl rfl
  | read hp => exact hquiet hp (by simp) (by simp) rfl rfl rfl rfl rfl rfl
  | peekNone hp => exact hquiet hp (by simp) (by simp) rfl rfl rfl rfl rfl rfl
  | peek hp =>
    exact hquiet hp (by simp) (by simp) rfl rfl rfl rfl rfl (Nat.sub_self num)
  | @pop left hd rest hp hqueue =>
    have hfollow : s.follow cfg (.run num) = { s with cur := [some hd] } := by
      unfold State.follow
      rw [hp, hqueue]
      rfl
    rw [hfollow]
    constructor
    · exact ⟨h.sq, h.inflight, h.cq, rfl⟩
    · exact List.Perm.refl _
    · unfold State.unhandled
      rw [hp]
      rfl
    · left
      show rest ++ [hd] ~ s.ctx.taskQueue ++ s.cur.reduceOption
      rw [hqueue, hcur]
      show rest ++ [hd] ~ hd :: rest ++ []
      rw [List.append_nil]
      exact List.perm_append_comm
  | @handled n hp =>
    have hfollow : s.follow cfg (.run num) = { s with cq := s.cq.drop n } := by
      unfold State.follow
      rw [hp]
    rw [hfollow]
    constructor
    · refine ⟨h.sq, h.inflight, ?_, h.cur⟩
      rw [List.length_drop, h.cq]
    · exact List.Perm.refl _
    · unfold State.unhandled
      rw [hp]
      rfl
    · exact .inl (List.Perm.refl _)

/-- A coroutine acts, and prepares nothing. -/
theorem Matched.act {x : Context.Action} (h : Matched s) (hallows : s.allows (.act x) = true)
    (hproper : Proper s (.ctx (.act x))) (hs : Context.act cfg s.ctx x = some ctx) :
    Followed s { s.follow cfg (.act x) with ctx } := by
  cases x with
  | prepareIo => cases hallows
  | submit x =>
    cases hs
    obtain ⟨hlen, htokens⟩ := h.enter cfg s.ctx.pc x
    obtain ⟨hsq, hinflight, hcq, hpc⟩ := submitTask_entries cfg s.ctx x
    obtain ⟨hsq', hinflight', hcq'⟩ := enter_entries cfg s x
    constructor
    · refine ⟨?_, ?_, ?_, hlen⟩
      · exact (congrArg List.length hsq').trans (h.sq.trans hsq.symm)
      · exact (congrArg List.length hinflight').trans (h.inflight.trans hinflight.symm)
      · exact (congrArg List.length hcq').trans (h.cq.trans hcq.symm)
    · show (s.enter cfg x).sq ++ (s.enter cfg x).inflight ~ _
      rw [hsq', hinflight']
    · show (s.enter cfg x).cq.drop (handledAt (s.ctx.submitTask cfg x).pc) = _
      rw [hcq', hpc]
      rfl
    · split_ifs at htokens
      · exact .inl (List.Perm.of_eq htokens)
      · exact .inr ⟨x, hproper, htokens⟩
  | earlySubmit num =>
    obtain ⟨⟨_, hnum⟩, ⟨⟩⟩ := Option.ite_none_right_eq_some.mp hs
    exact h.take hnum rfl rfl rfl rfl rfl rfl
  | registerWait =>
    cases hs
    exact h.quiet rfl rfl rfl rfl rfl rfl
  | unregisterWait =>
    obtain ⟨_, ⟨⟩⟩ := Option.ite_none_right_eq_some.mp hs
    exact h.quiet rfl rfl rfl rfl rfl rfl

/-- A step of the context. -/
theorem Matched.follow (h : Matched s) (hallows : s.allows a = true)
    (hproper : Proper s (.ctx a)) (hs : Context.step cfg s.ctx a = some ctx) :
    Followed s { s.follow cfg a with ctx } := by
  cases Context.step_cases hs with
  | start hpc => exact h.quiet rfl rfl rfl rfl rfl (congrArg handledAt hpc).symm
  | run hloop hrun => exact h.run hloop hrun
  | stopImpl hpc => exact h.quiet rfl rfl rfl rfl rfl (congrArg handledAt hpc).symm
  | callback => cases hallows
  | complete => cases hallows
  | act _ _ hact => exact h.act hallows hproper hact
  | wakeUp _ hwrite =>
    obtain ⟨c, _, rfl⟩ := Context.wakeUp_frame hwrite
    exact h.quiet rfl rfl rfl rfl rfl rfl
  | write _ hwrite =>
    obtain ⟨c, _, rfl⟩ := Context.wakeUp_frame hwrite
    exact h.quiet rfl rfl rfl rfl rfl rfl
  | writeStop _ hwrite =>
    obtain ⟨c, _, rfl⟩ := Context.wakeUp_frame hwrite
    exact h.quiet rfl rfl rfl rfl rfl rfl
  | requestStop | unregisterWait | signal => exact h.quiet rfl rfl rfl rfl rfl rfl
  | @push x _ _ =>
    refine ⟨⟨h.sq, h.inflight, h.cq, h.cur⟩, List.Perm.refl _, rfl, .inr ⟨x, hproper, ?_⟩⟩
    show s.ctx.taskQueue ++ [x] ++ s.cur.reduceOption ~ _
    rw [List.append_assoc]
    exact List.perm_middle
  | leave _ hcalls =>
    have hlen := h.cur
    have hhead : s.cur.head? = some none := of_decide_eq_true hallows
    cases hcur : s.cur with
    | nil =>
      rw [hcur] at hhead
      cases hhead
    | cons x rest =>
      rw [hcur] at hhead hlen
      obtain rfl : x = none := Option.some.inj hhead
      refine ⟨⟨h.sq, h.inflight, h.cq, ?_⟩, List.Perm.refl _, rfl, .inl (List.Perm.of_eq ?_)⟩
      · rw [hcalls] at hlen
        show s.cur.tail.length = _
        rw [hcur]
        exact Nat.succ.inj hlen
      · show s.ctx.taskQueue ++ s.cur.tail.reduceOption = s.ctx.taskQueue ++ s.cur.reduceOption
        rw [hcur, List.reduceOption_cons_of_none]
        rfl

end Follow

/-- A batch has no more callbacks to call than it has completions. -/
theorem left_le_of_reachable {c : Context.State} (h : (Context.machine cfg).Reachable c) :
    ∀ left num, c.pc = .handle left num → left ≤ num := by
  apply h.invariant (I := fun c => ∀ left num, c.pc = .handle left num → left ≤ num)
  · rintro c rfl left num hpc
    cases hpc
  · intro c a c' _ hle hs left num hpc
    cases Context.step_cases hs with
    | start | stopImpl => cases hpc
    | callback hold =>
      rw [Context.submitTask_frame.1] at hpc
      cases hpc
      exact Nat.le_of_succ_le (hle _ _ hold)
    | act _ _ hact => exact hle left num ((Context.act_frame hact).1 ▸ hpc)
    | wakeUp _ hwrite | write _ hwrite | writeStop _ hwrite =>
      obtain ⟨d, _, rfl⟩ := Context.wakeUp_frame hwrite
      exact hle left num hpc
    | leave | push | requestStop | unregisterWait | complete | signal => exact hle left num hpc
    | run _ hrun =>
      cases Context.runStep_cases hrun with
      | peek =>
        cases hpc
        exact Nat.le_refl _
      | exit | enter | sample | pop | worked | empty | waits | idle | back | stopped | stopSelf
      | stopWake | submit | submitNone | readCqe | read | peekNone | handled => cases hpc

/-! ## The invariant -/

structure Alive (s : State) : Prop where
  matched : Matched s
  awaiters : Awaiters s.mem s.susp s.loose s.made s.waiting s.tokens
  tidy : s.cur = [] → s.loose = []

section Steps

variable {ctx : Context.State} {a : Context.Label} {h h' addr : Nat} {rest : List (Option Nat)}

theorem alive_newState : Alive newState where
  matched := ⟨rfl, rfl, rfl, rfl⟩
  awaiters := by
    constructor
    · exact List.nodup_nil
    · simp [newState, State.waiting, State.unhandled]
    · simp [newState]
    · simp [newState]
    · simp [newState]
    · simp [newState]
    · exact List.nodup_nil
    · intro h _
      exact Awaiters.readable_of_none rfl
  tidy _ := rfl

/-- The coroutines without the one that runs. -/
theorem tokens_cons (hcur : s.cur = some h :: rest) :
    s.tokens ~ h :: (s.ctx.taskQueue ++ rest.reduceOption) := by
  unfold State.tokens
  rw [hcur, List.reduceOption_cons_of_some]
  exact List.perm_middle

theorem Followed.waiting {t : State} (h : Followed s t) : t.waiting ~ s.waiting := by
  unfold State.waiting
  rw [h.unhandled]
  exact h.ring.append_right _

theorem Followed.awaiters {t : State} (h : Followed s t)
    (hinv : Awaiters s.mem s.susp s.loose s.made s.waiting s.tokens) :
    Awaiters s.mem s.susp s.loose s.made t.waiting t.tokens := by
  apply (hinv.perm h.waiting).retoken
  · rcases h.tokens with hsame | ⟨x, hidle, hnew⟩
    · exact hsame.nodup_iff.mpr hinv.once
    · exact hnew.nodup_iff.mpr (List.nodup_cons.mpr ⟨not_mem_tokens hidle, hinv.once⟩)
  · intro y hy
    rcases h.tokens with hsame | ⟨x, hidle, hnew⟩
    · exact .inl (hsame.mem_iff.mp hy)
    · rcases List.mem_cons.mp (hnew.mem_iff.mp hy) with rfl | hold
      · exact .inr (Awaiters.readable_of_none hidle.2.2)
      · exact .inl hold

/-- The worker is in its loop only after every awaiter was awaited. -/
theorem Alive.tidy_follow (hinv : Alive s) (hproper : Proper s (.ctx a))
    (hs : Context.step cfg s.ctx a = some ctx) (hnil : (s.follow cfg a).cur = []) :
    s.loose = [] := by
  by_cases hcur : s.cur = []
  · exact hinv.tidy hcur
  cases a with
  | leave => exact hproper
  | run num =>
    obtain ⟨hloop, _⟩ := Option.ite_none_right_eq_some.mp hs
    have hlen := hinv.matched.cur
    rw [hloop.1] at hlen
    exact absurd (List.eq_nil_of_length_eq_zero hlen) hcur
  | act x =>
    cases x with
    | submit x =>
      have henter : (s.enter cfg x).cur = [] := hnil
      unfold State.enter at henter
      split_ifs at henter
      exact absurd henter hcur
    | prepareIo | earlySubmit | registerWait | unregisterWait => exact absurd hnil hcur
  | start | stopImpl | callback | wakeUp | push | write | requestStop | writeStop
  | unregisterWait | complete | signal => exact absurd hnil hcur

theorem Alive.follow (hinv : Alive s) (hallows : s.allows a = true)
    (hproper : Proper s (.ctx a)) (hs : Context.step cfg s.ctx a = some ctx) :
    Alive { s.follow cfg a with ctx } := by
  have hfollow := hinv.matched.follow hallows hproper hs
  obtain ⟨hmem, hsusp, hloose, hmade⟩ := follow_frame cfg s a
  refine ⟨hfollow.matched, ?_, ?_⟩
  · show Awaiters (s.follow cfg a).mem (s.follow cfg a).susp (s.follow cfg a).loose
      (s.follow cfg a).made _ _
    rw [hmem, hsusp, hloose, hmade]
    exact hfollow.awaiters hinv.awaiters
  · intro hnil
    exact hloose.trans (hinv.tidy_follow hproper hs hnil)

theorem Alive.construct (hinv : Alive s) (hcur : s.cur = some h :: rest)
    (hfree : s.mem addr = none) (req : Request)
    (hctx : Context.step cfg s.ctx (.act .prepareIo) = some ctx) :
    Alive { s with
      ctx
      mem := Function.update s.mem addr (some ⟨req.info, s.made.length⟩)
      sq := s.sq ++ [⟨addr, s.made.length⟩]
      loose := addr :: s.loose
      made := s.made ++ [req] } := by
  obtain ⟨_, hact⟩ := Option.ite_none_right_eq_some.mp hctx
  obtain ⟨_, ⟨⟩⟩ := Option.ite_none_right_eq_some.mp hact
  have hmatched := hinv.matched
  constructor
  · refine ⟨?_, hmatched.inflight, hmatched.cq, hmatched.cur⟩
    rw [List.length_append, hmatched.sq]
    rfl
  · apply (hinv.awaiters.construct hfree req).perm
    show (s.sq ++ [_]) ++ s.inflight ++ s.unhandled.map Cqe.toEntry ~
      (s.sq ++ s.inflight ++ s.unhandled.map Cqe.toEntry) ++ [_]
    rw [List.append_assoc, List.append_assoc, List.append_assoc s.sq, List.append_assoc s.sq]
    apply List.Perm.append_left
    exact List.perm_append_comm
  · intro hnil
    rw [hcur] at hnil
    cases hnil

theorem Alive.await {aw : Awaiter} (hinv : Alive s) (hcur : s.cur = some h :: rest)
    (hrun : s.susp h = none) (haw : s.mem addr = some aw) (hnew : aw.info.handle = none) :
    Alive { s with
      mem := Function.update s.mem addr (some { aw with info.handle := some h })
      susp := Function.update s.susp h (some addr)
      cur := none :: rest
      loose := s.loose.erase addr } := by
  have htokens := tokens_cons hcur
  obtain ⟨hout, hnodup⟩ := List.nodup_cons.mp (htokens.nodup_iff.mp hinv.awaiters.once)
  have hlen := hinv.matched.cur
  rw [hcur] at hlen
  refine ⟨⟨hinv.matched.sq, hinv.matched.inflight, hinv.matched.cq, hlen⟩, ?_, ?_⟩
  · apply hinv.awaiters.await haw hnew hrun hnodup
    intro x hx
    refine ⟨htokens.mem_iff.mpr (List.mem_cons_of_mem _ hx), ?_⟩
    rintro rfl
    exact hout hx
  · intro hnil
    cases hnil

theorem Alive.resume (hinv : Alive s) (hcur : s.cur = some h :: rest)
    (hsusp : s.susp h = some addr) :
    Alive { s with
      mem := Function.update s.mem addr none
      susp := Function.update s.susp h none } where
  matched := ⟨hinv.matched.sq, hinv.matched.inflight, hinv.matched.cq, hinv.matched.cur⟩
  awaiters := by
    apply hinv.awaiters.resume _ hsusp
    exact (tokens_cons hcur).mem_iff.mpr List.mem_cons_self
  tidy := hinv.tidy

/-- The worker leaves the coroutine that runs for another one, or for none. -/
theorem Alive.switch {o : Option Nat} (hinv : Alive s) (hcur : s.cur = some h :: rest)
    (ho : ∀ h' ∈ o, s.idle h') : Alive { s with cur := o :: rest } := by
  have htokens := tokens_cons hcur
  have hlen := hinv.matched.cur
  rw [hcur] at hlen
  refine ⟨⟨hinv.matched.sq, hinv.matched.inflight, hinv.matched.cq, hlen⟩, ?_, ?_⟩
  · have hless := (List.nodup_cons.mp (htokens.nodup_iff.mp hinv.awaiters.once)).2
    have hold : ∀ x ∈ s.ctx.taskQueue ++ rest.reduceOption, x ∈ s.tokens :=
      fun x hx => htokens.mem_iff.mpr (List.mem_cons_of_mem _ hx)
    cases o with
    | none => exact hinv.awaiters.retoken hless fun x hx => .inl (hold x hx)
    | some h' =>
      have hidle := ho h' rfl
      have hnew : State.tokens { s with cur := some h' :: rest } ~
          h' :: (s.ctx.taskQueue ++ rest.reduceOption) := tokens_cons rfl
      apply hinv.awaiters.retoken
      · rw [hnew.nodup_iff]
        exact List.nodup_cons.mpr ⟨fun hin => not_mem_tokens hidle (hold h' hin), hless⟩
      · intro x hx
        rcases List.mem_cons.mp (hnew.mem_iff.mp hx) with rfl | hx
        · exact .inr (Awaiters.readable_of_none hidle.2.2)
        · exact .inl (hold x hx)
  · intro hnil
    cases hnil

theorem handledAt_le {c : Context.State} (hb : Context.Books c) : handledAt c.pc ≤ c.cq := by
  unfold handledAt
  split
  · next left num hpc => exact Nat.le_trans (Nat.sub_le ..) (hb.batch left num hpc).1
  · exact Nat.zero_le _

theorem Alive.complete {i : Nat} {e : Entry} (hinv : Alive s) (hb : Context.Books s.ctx)
    (he : s.inflight[i]? = some e) (res : BitVec 32)
    (hctx : Context.step cfg s.ctx .complete = some ctx) :
    Alive { s with
      ctx
      inflight := s.inflight.eraseIdx i
      cq := s.cq ++ [⟨e, res⟩] } := by
  obtain ⟨_, ⟨⟩⟩ := Option.ite_none_right_eq_some.mp hctx
  obtain ⟨hi, rfl⟩ := List.getElem?_eq_some_iff.mp he
  have hmatched := hinv.matched
  have hhandled : handledAt s.ctx.pc ≤ s.cq.length := hmatched.cq ▸ handledAt_le hb
  refine ⟨⟨hmatched.sq, ?_, ?_, hmatched.cur⟩, ?_, hinv.tidy⟩
  · show (s.inflight.eraseIdx i).length = s.ctx.inflight - 1
    rw [List.length_eraseIdx_of_lt hi, hmatched.inflight]
  · rw [List.length_append, hmatched.cq]
    rfl
  · apply hinv.awaiters.perm
    show s.sq ++ s.inflight.eraseIdx i ++
      ((s.cq ++ [_]).drop (handledAt s.ctx.pc)).map Cqe.toEntry ~ s.waiting
    rw [List.drop_append_of_le_length hhandled, List.map_append, List.map_singleton]
    unfold State.waiting State.unhandled
    rw [List.append_assoc, List.append_assoc]
    apply List.Perm.append_left
    calc s.inflight.eraseIdx i ++ ((s.cq.drop (handledAt s.ctx.pc)).map Cqe.toEntry ++
          [s.inflight[i]])
        ~ s.inflight[i] :: (s.inflight.eraseIdx i ++
          (s.cq.drop (handledAt s.ctx.pc)).map Cqe.toEntry) := by
          rw [← List.append_assoc]
          exact List.perm_append_comm
      _ ~ s.inflight ++ (s.cq.drop (handledAt s.ctx.pc)).map Cqe.toEntry :=
          (List.getElem_cons_eraseIdx_perm hi).append_right _

/-- What `poll_submit` comes to next. -/
theorem next_eq {cqe : Cqe} {aw : Awaiter} (hnext : s.next = some (cqe, aw, h)) :
    ∃ left num, s.ctx.pc = .handle (left + 1) num ∧ s.cq[num - (left + 1)]? = some cqe ∧
      s.mem cqe.addr = some aw ∧ aw.info.handle = some h := by
  unfold State.next at hnext
  split at hnext
  · next left num hpc =>
    simp only [Option.bind_eq_bind, Option.bind_eq_some_iff] at hnext
    obtain ⟨cqe', hcqe, aw', haw, h', hh, heq⟩ := hnext
    cases heq
    exact ⟨left, num, hpc, hcqe, haw, hh⟩
  · cases hnext

theorem unhandled_eq {cqe : Cqe} {left num : Nat} (hpc : s.ctx.pc = .handle (left + 1) num)
    (hle : left + 1 ≤ num) (hcqe : s.cq[num - (left + 1)]? = some cqe) :
    s.unhandled = cqe :: s.cq.drop (num - left) := by
  obtain ⟨hi, rfl⟩ := List.getElem?_eq_some_iff.mp hcqe
  have hsucc : num - (left + 1) + 1 = num - left := by omega
  unfold State.unhandled
  rw [hpc]
  show s.cq.drop (num - (left + 1)) = _
  rw [List.drop_eq_getElem_cons hi, hsucc]

/-- What a callback does to the entries and the coroutines. -/
structure Called (cfg : Context.Config) (s s' : State) (cqe : Cqe) (h : Nat) : Prop where
  matched : Matched s'
  sq : s'.sq = s.sq
  inflight : s'.inflight = s.inflight
  unhandled : s.unhandled = cqe :: s'.unhandled
  susp : s'.susp = s.susp
  loose : s'.loose = s.loose
  made : s'.made = s.made
  cur : s'.cur = [] → s.cur = []
  tokens : if s.discards cfg then s'.tokens = s.tokens else s'.tokens ~ h :: s.tokens

theorem Matched.callback {cqe : Cqe} {aw : Awaiter} (hm : Matched s)
    (hr : (Context.machine cfg).Reachable s.ctx) (hnext : s.next = some (cqe, aw, h))
    (hctx : Context.step cfg s.ctx (.callback h) = some ctx) (mem : Nat → Option Awaiter) :
    Called cfg s { s.enter cfg h with ctx, mem } cqe h := by
  obtain ⟨left, num, hpc, hcqe, _, _⟩ := next_eq hnext
  -- The context is at the same batch, with one callback less to call.
  have hctx : (s.ctx.goto (.handle left num)).submitTask cfg h = ctx := by
    simp only [Context.step, hpc] at hctx
    obtain ⟨_, heq⟩ := Option.ite_none_right_eq_some.mp hctx
    exact Option.some.inj heq
  subst hctx
  obtain ⟨hsq, hinflight, hcq, hpc'⟩ := submitTask_entries cfg (s.ctx.goto (.handle left num)) h
  obtain ⟨hsq', hinflight', hcq'⟩ := enter_entries cfg s h
  obtain ⟨hlen, htokens⟩ := hm.enter cfg (.handle left num) h
  obtain ⟨hsusp, hloose, hmade⟩ : (s.enter cfg h).susp = s.susp ∧
      (s.enter cfg h).loose = s.loose ∧ (s.enter cfg h).made = s.made := by
    unfold State.enter
    split_ifs <;> exact ⟨rfl, rfl, rfl⟩
  refine ⟨⟨?_, ?_, ?_, hlen⟩, hsq', hinflight', ?_, hsusp, hloose, hmade, ?_, htokens⟩
  · exact (congrArg List.length hsq').trans (hm.sq.trans hsq.symm)
  · exact (congrArg List.length hinflight').trans (hm.inflight.trans hinflight.symm)
  · exact (congrArg List.length hcq').trans (hm.cq.trans hcq.symm)
  · rw [unhandled_eq hpc (left_le_of_reachable hr _ _ hpc) hcqe]
    show _ = cqe :: (s.enter cfg h).cq.drop
      (handledAt ((s.ctx.goto (.handle left num)).submitTask cfg h).pc)
    rw [hcq', hpc']
    rfl
  · intro hnil
    have henter : (s.enter cfg h).cur = [] := hnil
    unfold State.enter at henter
    split_ifs at henter
    exact henter

/-- The entry of a completion is the first one that was not handled. -/
theorem Called.waiting {cqe : Cqe} (h' : Called cfg s s' cqe h) :
    s.waiting ~ cqe.toEntry :: s'.waiting := by
  unfold State.waiting
  rw [h'.unhandled, h'.sq, h'.inflight, List.map_cons]
  exact List.perm_middle

/-- A completion has the awaiter of its operation, and nobody else resumes the
coroutine there. -/
theorem Alive.next {cqe : Cqe} {aw : Awaiter} (hinv : Alive s)
    (hcalled : Called cfg s s' cqe h) (haw : s.mem cqe.addr = some aw)
    (hh : aw.info.handle = some h) :
    aw.op = cqe.op ∧ s.susp h = some cqe.addr ∧ h ∉ s.tokens := by
  have hin : cqe.toEntry ∈ s.waiting := hcalled.waiting.mem_iff.mpr List.mem_cons_self
  obtain ⟨aw', haw', hop, hres⟩ := hinv.awaiters.alive _ hin
  obtain rfl : aw = aw' := Option.some.inj (haw.symm.trans haw')
  exact ⟨hop, (hinv.awaiters.suspended ..).mpr ⟨aw, haw, hh⟩, hinv.awaiters.asleep haw hres hh⟩

theorem Alive.callback {cqe : Cqe} {aw : Awaiter} (hinv : Alive s)
    (hr : (Context.machine cfg).Reachable s.ctx) (hnext : s.next = some (cqe, aw, h))
    (hctx : Context.step cfg s.ctx (.callback h) = some ctx) :
    Alive { s.enter cfg h with
      ctx
      mem := Function.update s.mem cqe.addr (some { aw with info := aw.info.call cqe.res }) } := by
  obtain ⟨_, _, _, _, haw, hh⟩ := next_eq hnext
  have hcalled := hinv.matched.callback hr hnext hctx
    (Function.update s.mem cqe.addr (some { aw with info := aw.info.call cqe.res }))
  obtain ⟨_, hsusp, hout⟩ := hinv.next hcalled haw hh
  refine ⟨hcalled.matched, ?_, ?_⟩
  · rw [hcalled.susp, hcalled.loose, hcalled.made]
    have hstored := (hinv.awaiters.perm hcalled.waiting.symm).callback haw cqe.res
    have htokens := hcalled.tokens
    split_ifs at htokens
    · rw [htokens]
      exact hstored
    · apply hstored.retoken
      · exact htokens.nodup_iff.mpr (List.nodup_cons.mpr ⟨hout, hinv.awaiters.once⟩)
      · intro x hx
        rcases List.mem_cons.mp (htokens.mem_iff.mp hx) with rfl | hold
        · right
          intro addr' aw' hsusp' haw'
          -- Its awaiter is the one that got the result.
          obtain rfl : addr' = cqe.addr := Option.some.inj (hsusp'.symm.trans hsusp)
          rw [Function.update_self] at haw'
          cases haw'
          exact Option.some_ne_none _
        · exact .inl hold
  · intro hnil
    exact hcalled.loose.trans (hinv.tidy (hcalled.cur hnil))

theorem Alive.step {a : Label} (hinv : Alive s) (hr : (Context.machine cfg).Reachable s.ctx)
    (hproper : Proper s a) (hs : step cfg s a = some s') : Alive s' := by
  cases step_cases hs with
  | ctx hallows hctx => exact hinv.follow hallows hproper hctx
  | construct hcur _ hfree hctx => exact hinv.construct hcur hfree _ hctx
  | await hcur hrun haw hnew => exact hinv.await hcur hrun haw hnew
  | resume hcur hsusp => exact hinv.resume hcur hsusp
  | transfer hcur =>
    apply hinv.switch hcur
    rintro x ⟨⟩
    exact hproper
  | suspend hcur => exact hinv.switch hcur (by simp)
  | complete he hctx => exact hinv.complete (Context.books_of_reachable hr) he _ hctx
  | callback hnext hctx => exact hinv.callback hr hnext hctx

end Steps

theorem alive_of_reachable (h : (machine cfg).ReachableUnder Proper s) : Alive s := by
  apply h.invariant
  · rintro s rfl
    exact alive_newState
  · intro s a s' hr hinv hproper hs
    exact hinv.step (reachable_ctx hr.reachable) hproper hs

/-- In the loop over a batch there is always a completion, with its awaiter
and the handle in it. -/
theorem Alive.exists_next {left num : Nat} (hinv : Alive s)
    (hr : (Context.machine cfg).Reachable s.ctx) (hpc : s.ctx.pc = .handle (left + 1) num)
    (hloop : s.cur = []) :
    ∃ cqe aw h, s.next = some (cqe, aw, h) ∧ aw.op = cqe.op ∧ aw.info.handle = some h ∧
      s.mem cqe.addr = some aw ∧ aw.info.result = none := by
  have hle := left_le_of_reachable hr _ _ hpc
  have hlt : num - (left + 1) < s.cq.length := by
    have hbatch := ((Context.books_of_reachable hr).batch _ _ hpc).1
    rw [hinv.matched.cq]
    omega
  obtain ⟨cqe, hcqe⟩ : ∃ cqe, s.cq[num - (left + 1)]? = some cqe :=
    ⟨_, List.getElem?_eq_getElem hlt⟩
  have hin : cqe.toEntry ∈ s.waiting := by
    unfold State.waiting
    rw [unhandled_eq hpc hle hcqe]
    exact List.mem_append_right _ List.mem_cons_self
  obtain ⟨aw, haw, hop, hres⟩ := hinv.awaiters.alive _ hin
  cases hh : aw.info.handle with
  | none =>
    -- Nobody is between the constructor and `await_suspend`.
    have hloose := hinv.awaiters.unawaited _ aw haw hh
    rw [hinv.tidy hloop] at hloose
    cases hloose
  | some h =>
    refine ⟨cqe, aw, h, ?_, hop, hh, haw, hres⟩
    unfold State.next
    rw [hpc]
    simp only [Option.bind_eq_bind]
    rw [hcqe, Option.bind_some, haw, Option.bind_some, hh, Option.bind_some]

/-- While an operation is with the kernel its awaiter is alive.  Every
completion finds the awaiter it was prepared for, with a coroutine that is
suspended there and that nobody else resumes, and a coroutine that is resumed
at an awaiter finds its result there. -/
theorem completion_finds_awaiter (cfg : Context.Config) (s : State)
    (h : (machine cfg).ReachableUnder Proper s) :
    (∀ e ∈ s.waiting, ∃ aw, s.mem e.addr = some aw ∧ aw.op = e.op ∧ aw.info.result = none) ∧
      (∀ left num, s.ctx.pc = .handle (left + 1) num → s.ctx.inLoop →
        ∃ cqe aw hd, s.next = some (cqe, aw, hd) ∧ aw.op = cqe.op ∧
          s.susp hd = some cqe.addr ∧ hd ∉ s.tokens ∧ (step cfg s .callback).isSome = true) ∧
      ∀ hd addr, s.cur.head? = some (some hd) → s.susp hd = some addr →
        ∃ aw v, s.mem addr = some aw ∧ aw.info.handle = some hd ∧ aw.info.result = some v := by
  have hinv := alive_of_reachable h
  have hr := reachable_ctx h.reachable
  refine ⟨hinv.awaiters.alive, ?_, ?_⟩
  · intro left num hpc hloop
    have hcur : s.cur = [] := by
      apply List.eq_nil_of_length_eq_zero
      rw [hinv.matched.cur, hloop.1]
      rfl
    obtain ⟨cqe, aw, hd, hnext, hop, hh, haw, hres⟩ := hinv.exists_next hr hpc hcur
    refine ⟨cqe, aw, hd, hnext, hop, (hinv.awaiters.suspended ..).mpr ⟨aw, haw, hh⟩,
      hinv.awaiters.asleep haw hres hh, ?_⟩
    simp only [step, hnext, Context.step, hpc]
    rw [if_pos hloop]
    rfl
  · intro hd addr hhead hsusp
    obtain ⟨aw, haw, hh⟩ := (hinv.awaiters.suspended ..).mp hsusp
    have htoken : hd ∈ s.tokens := mem_tokens.mpr (.inr (List.mem_of_mem_head? hhead))
    have hres := hinv.awaiters.written hd htoken addr aw hsusp haw
    obtain ⟨v, hv⟩ := Option.ne_none_iff_exists'.mp hres
    exact ⟨aw, v, haw, hh, hv⟩

/-- A coroutine awaits a timer, and the kernel has posted the timeout. -/
def oneTimer : List Label :=
  [.ctx (.push 5), .ctx .write, .ctx .start, .ctx (.run 0), .ctx (.run 0), .ctx (.run 0),
    .construct .timer 3, .await 3, .ctx .leave, .ctx (.run 0), .ctx (.run 0), .ctx (.run 1),
    .complete 0 (-etime), .ctx .signal, .ctx (.run 0), .ctx (.run 1)]

/-- A worker with room for a few tasks. -/
def smallConfig : Context.Config where
  queCap := 4
  maxRecursiveDepth := 2
  sqEntries := 4
  scheduled := true

theorem completion_finds_awaiter_timer : ∃ s, (machine smallConfig).ReachableUnder Proper s ∧
    (step smallConfig s .callback).isSome = true := by
  have hrun : ((machine smallConfig).runUnder Proper newState oneTimer).map
      (fun s => decide (s.ctx.pc = .handle 1 1 ∧ s.ctx.inLoop)) = some true := by decide
  obtain ⟨s, hr, htest⟩ := Machine.reachableUnder_of_run rfl hrun
  obtain ⟨hpc, hloop⟩ := of_decide_eq_true htest
  obtain ⟨_, _, _, _, _, _, _, hsome⟩ :=
    (completion_finds_awaiter smallConfig s hr).2.1 0 1 hpc hloop
  exact ⟨s, hr, hsome⟩

end SheepCoro.Io
