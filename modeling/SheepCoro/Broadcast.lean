import SheepCoro.Lib.Machine
import SheepCoro.Lib.Chain
import Mathlib.Tactic.Common

/-!
# The loops that wake a list of waiters

Five functions walk a list of awaiters that is linked through the frames of
suspended coroutines: `mutex::unlock`, `condition_variable::notify_one` and
`notify_all`, `event_base::set_state` (through `resume_all_awaiter`) and
`wait_group::done`.  Once an awaiter is resumed its coroutine may run to
completion, or register the same storage somewhere else, before the loop
takes its next step: on another worker, or in the same thread when
`engine::submit_task` finds the queue full and executes the task inline.
`Label.behave` is that freedom: it stores anything into the link of an
awaiter that the loop does not hold any more.

The machine logs which awaiters the loop resumed and whether it ever read
the link of one of them afterwards.  `broadcast_safe_iff` is the result: the
loops of `event` and `wait_group` read the link after the resume, so they
are safe only on an empty list; the other three read it before.

A `wake_up` of a condition variable passes the awaiter to the mutex, which
uses the same link field again, so it counts as a resume here.  The
`unlock` of one owner resumes one awaiter; the list that its `exchange`
captured is served by the `unlock` calls of the following owners, and the
machine runs until that list is used up.  Waiters that are pushed in the
meantime hang off `m_state` and are not read before the next `exchange`.
-/

namespace SheepCoro.Broadcast

open Lib

/-! ## The five loops -/

/-- The function that runs the loop. -/
inductive Source
  | unlock
  | notifyOne
  | notifyAll
  | setState
  | done
deriving DecidableEq

/-- The next operation of a loop. -/
inductive Pc (ι : Type)
  /-- `resume_all_awaiter` and `done`: the loop test, then the resume. -/
  | submit (head : Option ι)
  /-- `resume_all_awaiter` and `done`: read the link of the resumed one. -/
  | advance (cur : ι)
  /-- `notify_all`: the loop test, then `nxt = cur_head->m_next`. -/
  | test (curHead : Option ι)
  /-- `notify_all`: `cur_head->wake_up(); cur_head = nxt`. -/
  | wake (curHead : ι) (nxt : Option ι)
  /-- `notify_one`: `m_head = m_head->m_next` when there is a head. -/
  | pop (cur : Option ι)
  | wakeOne (cur : ι)
  /-- `unlock`: one iteration of the reversing loop. -/
  | reverse (awaiter : ι) (toResume : Option ι)
  /-- The next `unlock` reads `m_resume_list_head`. -/
  | pick
  /-- `unlock`: `m_resume_list_head = to_resume->m_next`. -/
  | setHead (toResume : ι)
  /-- `unlock`: `to_resume->resume()`. -/
  | handOff (toResume : ι)
  | finished
deriving DecidableEq

structure State (ι : Type) where
  /-- `m_next` of every awaiter. -/
  next : ι → Option ι
  /-- `m_resume_list_head`; the loops other than `unlock` do not use it. -/
  resumeListHead : Option ι
  pc : Pc ι
  /-- The awaiters that the loop has resumed, in order. -/
  resumed : List ι
  /-- The loop has read the link of an awaiter that it had resumed. -/
  stale : Bool
  /-- How many operations the loop has executed. -/
  work : Nat

inductive Label (ι : Type)
  /-- The loop executes its next operation. -/
  | loop
  /-- Whoever owns the storage of awaiter `i` now stores into its link. -/
  | behave (i : ι) (v : Option ι)

/-- Where a loop starts that was given the list at `head`.  `unlock` has
exchanged `m_state`, or released the mutex when nobody waits. -/
def startPc {ι : Type} : Source → Option ι → Pc ι
  | .setState, head | .done, head => .submit head
  | .notifyAll, head => .test head
  | .notifyOne, head => .pop head
  | .unlock, none => .finished
  | .unlock, some awaiter => .reverse awaiter none

/-- The waiters that one run of the loop is to resume, out of the registered
ones in their order of arrival (the order of the links for the lists that
are walked from their head). -/
def captured {ι : Type} : Source → List ι → List ι
  | .notifyOne, ws => ws.take 1
  | _, ws => ws

/-- The order in which the links visit the waiters.  `m_state` of a mutex is
a stack, so it visits them from the last one to the first. -/
def linked {ι : Type} : Source → List ι → List ι
  | .unlock, ws => ws.reverse
  | _, ws => ws

variable {ι : Type} [DecidableEq ι]

/-- A read of the link of `a` is logged. -/
def State.read (s : State ι) (a : ι) : State ι :=
  { s with stale := s.stale || decide (a ∈ s.resumed) }

/-- A resume of `a` is logged. -/
def State.resume (s : State ι) (a : ι) : State ι :=
  { s with resumed := s.resumed ++ [a] }

/-- One operation of the loop. -/
def loopStep (s : State ι) : Option (State ι) :=
  let s := { s with work := s.work + 1 }
  match s.pc with
  | .submit none => some { s with pc := .finished }
  | .submit (some cur) => some { s.resume cur with pc := .advance cur }
  | .advance cur => some { s.read cur with pc := .submit (s.next cur) }
  | .test none => some { s with pc := .finished }
  | .test (some cur) => some { s.read cur with pc := .wake cur (s.next cur) }
  | .wake cur nxt => some { s.resume cur with pc := .test nxt }
  | .pop none => some { s with pc := .finished }
  | .pop (some cur) => some { s.read cur with pc := .wakeOne cur }
  | .wakeOne cur => some { s.resume cur with pc := .finished }
  | .reverse awaiter toResume =>
    some { s.read awaiter with
      next := Function.update s.next awaiter toResume
      pc := match s.next awaiter with
        | none => .setHead awaiter
        | some temp => .reverse temp (some awaiter) }
  | .pick =>
    match s.resumeListHead with
    | none => some { s with pc := .finished }
    | some toResume => some { s with pc := .setHead toResume }
  | .setHead toResume =>
    some { s.read toResume with
      resumeListHead := s.next toResume
      pc := .handOff toResume }
  | .handOff toResume => some { s.resume toResume with pc := .pick }
  | .finished => none

/-- One step of the loop, or of whoever owns the storage of an awaiter that
is not captured or is captured and already resumed. -/
def step (src : Source) (ws : List ι) (s : State ι) : Label ι → Option (State ι)
  | .loop => loopStep s
  | .behave i v =>
    if i ∉ captured src ws ∨ i ∈ s.resumed then
      some { s with next := Function.update s.next i v }
    else none

/-- The loop has just been handed the registered waiters `ws`. -/
structure Init (src : Source) (ws : List ι) (s : State ι) : Prop where
  chain : ∃ head, Chain s.next head (linked src ws) ∧ s.pc = startPc src head
  resumeListHead : s.resumeListHead = none
  resumed : s.resumed = []
  stale : s.stale = false
  work : s.work = 0

/-- The loop `src` on the registered waiters `ws`. -/
def machine (src : Source) (ws : List ι) : Machine (State ι) (Label ι) where
  init := Init src ws
  step := step src ws

/-- What a broadcast promises in every state of every run: no link is read
after the resume, no waiter is resumed more often than it was captured, all
of them have been when the loop is over, and the loop does come to its end:
it is never stuck before, and the number of its operations is bounded. -/
structure Safe (src : Source) (ws : List ι) (s : State ι) : Prop where
  no_stale_read : s.stale = false
  at_most_once : ∀ a, s.resumed.count a ≤ (captured src ws).count a
  exactly_once : s.pc = .finished → ∀ a, s.resumed.count a = (captured src ws).count a
  not_stuck : s.pc ≠ .finished → (loopStep s).isSome
  bounded : s.work ≤ 4 * ws.length + 2

/-- The functions that read a link before they resume its owner. -/
def Source.linkFirst : Source → Bool
  | .unlock | .notifyOne | .notifyAll => true
  | .setState | .done => false

/-! ## The loops that read the link first -/

/-- The waiters that are still to be resumed, as the registers of the loop
and the links see them.  The last argument bounds the operations that are
left. -/
def Holds (s : State ι) (rest : List ι) (left : Nat) : Prop :=
  match s.pc with
  | .submit _ | .advance _ => False
  | .test p => Chain s.next p rest ∧ left = 2 * rest.length + 1
  | .wake a nxt => ∃ r, rest = a :: r ∧ Chain s.next nxt r ∧ left = 2 * rest.length
  | .pop p => rest = p.toList ∧ left = 2
  | .wakeOne a => rest = [a] ∧ left = 1
  | .reverse a tr => ∃ c d, Chain s.next (some a) c ∧ Chain s.next tr d ∧
      rest = c.reverse ++ d ∧ left = c.length + 3 * rest.length
  | .pick => Chain s.next s.resumeListHead rest ∧ left = 3 * rest.length + 1
  | .setHead a => ∃ r, rest = a :: r ∧ Chain s.next (s.next a) r ∧ left = 3 * rest.length
  | .handOff a => ∃ r, rest = a :: r ∧ Chain s.next s.resumeListHead r ∧
      left + 1 = 3 * rest.length
  | .finished => rest = [] ∧ left = 0

/-- The invariant of the three loops: what was resumed and what is left make
up the captured list, no link was read too late, and the work that is done
and the work that is left stay below the bound. -/
structure Inv (src : Source) (ws : List ι) (s : State ι) : Prop where
  split : ∃ rest left, captured src ws = s.resumed ++ rest ∧ Holds s rest left ∧
    s.work + left ≤ 4 * ws.length + 2
  fresh : s.stale = false
  nodup : (captured src ws).Nodup

/-- A read of the link of a waiter that is still to be resumed is not
stale. -/
theorem Inv.read_fresh {src : Source} {ws : List ι} {s : State ι} (h : Inv src ws s)
    {rest : List ι} (hsplit : captured src ws = s.resumed ++ rest) {a : ι} (ha : a ∈ rest) :
    (s.read a).stale = false := by
  have hnd := h.nodup
  rw [hsplit, List.nodup_append] at hnd
  have hna : a ∉ s.resumed := fun hm => hnd.2.2 a hm a ha rfl
  simp [State.read, h.fresh, hna]

/-- A store to a link that the loop does not need any more. -/
theorem Holds.behave {s : State ι} {rest : List ι} {left : Nat} {i : ι} {v : Option ι}
    (hi : i ∉ rest) (h : Holds s rest left) :
    Holds { s with next := Function.update s.next i v } rest left := by
  unfold Holds at h ⊢
  cases hpc : s.pc with
  | submit p => simp [hpc] at h
  | advance a => simp [hpc] at h
  | test p =>
    simp only [hpc] at h ⊢
    exact ⟨h.1.update hi, h.2⟩
  | wake a nxt =>
    simp only [hpc] at h ⊢
    obtain ⟨r, rfl, hc, hl⟩ := h
    exact ⟨r, rfl, hc.update (fun hm => hi (List.mem_cons_of_mem _ hm)), hl⟩
  | pop p => simpa only [hpc] using h
  | wakeOne a => simpa only [hpc] using h
  | reverse a tr =>
    simp only [hpc] at h ⊢
    obtain ⟨c, d, hc, hd, hr, hl⟩ := h
    have hcd : i ∉ c ∧ i ∉ d := by simpa [hr] using hi
    exact ⟨c, d, hc.update hcd.1, hd.update hcd.2, hr, hl⟩
  | pick =>
    simp only [hpc] at h ⊢
    exact ⟨h.1.update hi, h.2⟩
  | setHead a =>
    simp only [hpc] at h ⊢
    obtain ⟨r, rfl, hc, hl⟩ := h
    have hia : a ≠ i := fun hai => hi (hai ▸ List.mem_cons_self ..)
    refine ⟨r, rfl, ?_, hl⟩
    rw [Function.update_of_ne hia]
    exact hc.update fun hm => hi (List.mem_cons_of_mem _ hm)
  | handOff a =>
    simp only [hpc] at h ⊢
    obtain ⟨r, rfl, hc, hl⟩ := h
    exact ⟨r, rfl, hc.update (fun hm => hi (List.mem_cons_of_mem _ hm)), hl⟩
  | finished => simpa only [hpc] using h

theorem Inv.behave {src : Source} {ws : List ι} {s : State ι} (h : Inv src ws s) {i : ι}
    {v : Option ι} (hi : i ∉ captured src ws ∨ i ∈ s.resumed) :
    Inv src ws { s with next := Function.update s.next i v } := by
  obtain ⟨rest, left, hsplit, hh, hw⟩ := h.split
  have hrest : i ∉ rest := by
    intro hm
    have hnd := h.nodup
    rw [hsplit] at hi hnd
    rcases hi with hi | hi
    · exact hi (List.mem_append_right _ hm)
    · exact (List.nodup_append.mp hnd).2.2 i hi i hm rfl
  exact ⟨⟨rest, left, hsplit, hh.behave hrest, hw⟩, h.fresh, h.nodup⟩

omit [DecidableEq ι] in
/-- The loop resumes the first waiter that is left. -/
theorem resumed_append {s : State ι} {a : ι} {ws r : List ι}
    (hsplit : ws = s.resumed ++ a :: r) : ws = (s.resumed ++ [a]) ++ r := by
  rw [hsplit, List.append_assoc, List.singleton_append]

/-- One turn of the loop that reverses the list: a node moves from the list
that is walked to the reversed one. -/
theorem Inv.reverse {src : Source} {ws : List ι} {s s' : State ι} {a : ι} {tr : Option ι}
    (h : Inv src ws s) (hpc : s.pc = .reverse a tr) (hs : loopStep s = some s') :
    Inv src ws s' := by
  obtain ⟨rest, left, hsplit, hh, hw⟩ := h.split
  unfold Holds at hh
  unfold loopStep at hs
  simp only [hpc] at hh hs
  obtain ⟨c, d, hc, hd, hr, hl⟩ := hh
  obtain ⟨c', rfl, hc'⟩ := Chain.some_iff.mp hc
  have hmem : a ∈ rest := by simp [hr]
  have hnd : (a :: c').reverse ++ d = c'.reverse ++ a :: d := by simp
  have hnodup : (c'.reverse ++ a :: d).Nodup := by
    have hall := h.nodup
    rw [hsplit, hr, hnd] at hall
    exact (List.nodup_append.mp hall).2.1
  have had : a ∉ d := (List.nodup_cons.mp (List.nodup_append.mp hnodup).2.1).1
  have hac : a ∉ c' := (List.nodup_cons.mp hc.nodup).1
  have hpush := hd.push had
  have hwalk := hc'.update (v := tr) hac
  cases hs
  cases hn : s.next a with
  | none =>
    rw [hn, Chain.none_iff] at hc'
    subst hc'
    refine ⟨⟨rest, 3 * rest.length, hsplit, ⟨d, ?_, ?_, rfl⟩, ?_⟩,
      h.read_fresh hsplit hmem, h.nodup⟩
    · rw [hr, hnd]
      rfl
    · exact hpush.2
    · simp only [State.read, List.length_cons] at hl hw ⊢
      omega
  | some b =>
    rw [hn] at hwalk
    refine ⟨⟨rest, c'.length + 3 * rest.length, hsplit,
      ⟨c', a :: d, hwalk, hpush, hr.trans hnd, rfl⟩, ?_⟩,
      h.read_fresh hsplit hmem, h.nodup⟩
    simp only [State.read, List.length_cons] at hl hw ⊢
    omega

/-- One operation of the loop.  The cases follow `loopStep`. -/
theorem Inv.loop {src : Source} {ws : List ι} {s s' : State ι} (h : Inv src ws s)
    (hs : loopStep s = some s') : Inv src ws s' := by
  have hs₀ := hs
  obtain ⟨rest, left, hsplit, hh, hw⟩ := h.split
  unfold Holds at hh
  unfold loopStep at hs
  cases hpc : s.pc with
  | submit p => simp [hpc] at hh
  | advance a => simp [hpc] at hh
  | test p =>
    simp only [hpc] at hh hs
    obtain ⟨hc, hl⟩ := hh
    cases p with
    | none =>
      rw [Chain.none_iff] at hc
      cases hs
      exact ⟨⟨rest, 0, hsplit, ⟨hc, rfl⟩, by simp only; omega⟩, h.fresh, h.nodup⟩
    | some a =>
      obtain ⟨r, rfl, htail⟩ := Chain.some_iff.mp hc
      cases hs
      refine ⟨⟨a :: r, 2 * (r.length + 1), hsplit, ⟨r, rfl, htail, rfl⟩, ?_⟩,
        h.read_fresh hsplit (List.mem_cons_self ..), h.nodup⟩
      simp only [List.length_cons, State.read] at hl hw ⊢
      omega
  | wake a nxt =>
    simp only [hpc] at hh hs
    obtain ⟨r, rfl, hc, hl⟩ := hh
    cases hs
    refine ⟨⟨r, 2 * r.length + 1, resumed_append hsplit, ⟨hc, rfl⟩, ?_⟩, h.fresh, h.nodup⟩
    simp only [List.length_cons, State.resume] at hl hw ⊢
    omega
  | pop p =>
    simp only [hpc] at hh hs
    obtain ⟨hr, hl⟩ := hh
    cases p with
    | none =>
      cases hs
      exact ⟨⟨rest, 0, hsplit, ⟨hr, rfl⟩, by simp only; omega⟩, h.fresh, h.nodup⟩
    | some a =>
      cases hs
      refine ⟨⟨rest, 1, hsplit, ⟨hr, rfl⟩, ?_⟩,
        h.read_fresh hsplit (by simp [hr]), h.nodup⟩
      simp only [State.read]
      omega
  | wakeOne a =>
    simp only [hpc] at hh hs
    obtain ⟨rfl, hl⟩ := hh
    cases hs
    refine ⟨⟨[], 0, resumed_append hsplit, ⟨rfl, rfl⟩, ?_⟩, h.fresh, h.nodup⟩
    simp only [State.resume]
    omega
  | reverse a tr => exact h.reverse hpc hs₀
  | pick =>
    simp only [hpc] at hh hs
    obtain ⟨hc, hl⟩ := hh
    cases hp : s.resumeListHead with
    | none =>
      rw [hp] at hs
      rw [hp, Chain.none_iff] at hc
      cases hs
      exact ⟨⟨rest, 0, hsplit, ⟨hc, rfl⟩, by simp only; omega⟩, h.fresh, h.nodup⟩
    | some a =>
      rw [hp] at hs hc
      obtain ⟨r, rfl, htail⟩ := Chain.some_iff.mp hc
      cases hs
      refine ⟨⟨a :: r, 3 * (r.length + 1), hsplit, ⟨r, rfl, htail, rfl⟩, ?_⟩, h.fresh, h.nodup⟩
      simp only [List.length_cons] at hl hw ⊢
      omega
  | setHead a =>
    simp only [hpc] at hh hs
    obtain ⟨r, rfl, hc, hl⟩ := hh
    cases hs
    refine ⟨⟨a :: r, 3 * r.length + 2, hsplit, ⟨r, rfl, hc, ?_⟩, ?_⟩,
      h.read_fresh hsplit (List.mem_cons_self ..), h.nodup⟩
    · simp only [List.length_cons]
      omega
    · simp only [List.length_cons, State.read] at hl hw ⊢
      omega
  | handOff a =>
    simp only [hpc] at hh hs
    obtain ⟨r, rfl, hc, hl⟩ := hh
    cases hs
    refine ⟨⟨r, 3 * r.length + 1, resumed_append hsplit, ⟨hc, rfl⟩, ?_⟩, h.fresh, h.nodup⟩
    simp only [List.length_cons, State.resume] at hl hw ⊢
    omega
  | finished => simp [hpc] at hs

omit [DecidableEq ι] in
theorem Inv.init {src : Source} (hsrc : src.linkFirst = true) {ws : List ι} {s : State ι}
    (h : Init src ws s) : Inv src ws s := by
  obtain ⟨head, hc, hpc⟩ := h.chain
  have hws : ws.Nodup := by
    have hnd := hc.nodup
    cases src <;> simpa [linked] using hnd
  have hcap : (captured src ws).Nodup := by
    cases src with
    | notifyOne => exact hws.sublist (List.take_sublist 1 ws)
    | _ => exact hws
  -- It is enough to find the number of operations that are ahead.
  suffices hleft : ∃ left, Holds s (captured src ws) left ∧ left ≤ 4 * ws.length + 2 by
    obtain ⟨left, hh, hle⟩ := hleft
    refine ⟨⟨captured src ws, left, by simp [h.resumed], hh, ?_⟩, h.stale, hcap⟩
    have hwork := h.work
    omega
  unfold Holds
  cases src with
  | setState => simp [Source.linkFirst] at hsrc
  | done => simp [Source.linkFirst] at hsrc
  | notifyAll =>
    simp only [hpc, startPc]
    exact ⟨2 * ws.length + 1, ⟨hc, rfl⟩, by omega⟩
  | notifyOne =>
    simp only [hpc, startPc]
    refine ⟨2, ⟨?_, rfl⟩, by omega⟩
    cases head with
    | none =>
      have hnil : ws = [] := by simpa [linked] using hc
      simp [captured, hnil]
    | some a =>
      obtain ⟨r, hr, _⟩ := Chain.some_iff.mp hc
      have hcons : ws = a :: r := hr
      simp [captured, hcons]
  | unlock =>
    cases head with
    | none =>
      have hnil : ws = [] := by simpa [linked] using hc
      simp only [hpc, startPc]
      exact ⟨0, ⟨hnil, rfl⟩, by omega⟩
    | some a =>
      simp only [hpc, startPc]
      refine ⟨4 * ws.length, ⟨ws.reverse, [], hc, rfl, ?_, ?_⟩, by omega⟩
      · simp [captured]
      · simp only [captured, List.length_reverse]
        omega

theorem Inv.step {src : Source} {ws : List ι} {s s' : State ι} {l : Label ι}
    (h : Inv src ws s) (hs : step src ws s l = some s') : Inv src ws s' := by
  cases l with
  | loop => exact h.loop hs
  | behave i v =>
    obtain ⟨hi, hs⟩ := Option.ite_none_right_eq_some.mp hs
    cases hs
    exact h.behave hi

theorem loopStep_isSome {s : State ι} (h : s.pc ≠ .finished) : (loopStep s).isSome := by
  unfold loopStep
  cases hpc : s.pc with
  | submit p => cases p <;> rfl
  | test p => cases p <;> rfl
  | pop p => cases p <;> rfl
  | pick => cases s.resumeListHead <;> rfl
  | finished => exact absurd hpc h
  | advance a => rfl
  | wake a nxt => rfl
  | wakeOne a => rfl
  | reverse a tr => rfl
  | setHead a => rfl
  | handOff a => rfl

theorem Inv.safe {src : Source} {ws : List ι} {s : State ι} (h : Inv src ws s) :
    Safe src ws s := by
  obtain ⟨rest, left, hsplit, hh, hw⟩ := h.split
  refine ⟨h.fresh, fun a => ?_, fun hpc a => ?_, loopStep_isSome, by omega⟩
  · rw [hsplit, List.count_append]
    omega
  · unfold Holds at hh
    simp only [hpc] at hh
    rw [hsplit, hh.1, List.append_nil]

/-! ## The loops that read it afterwards -/

/-- With nobody captured the loop ends after its first test. -/
theorem safe_of_empty {src : Source} (hsrc : src.linkFirst = false) {s : State ι}
    (h : (machine src []).Reachable s) : Safe src [] s := by
  have hinv : s.resumed = [] ∧ s.stale = false ∧
      (s.pc = .submit none ∧ s.work = 0 ∨ s.pc = .finished ∧ s.work = 1) := by
    refine h.invariant (I := fun s => s.resumed = [] ∧ s.stale = false ∧
      (s.pc = .submit none ∧ s.work = 0 ∨ s.pc = .finished ∧ s.work = 1)) ?_ ?_
    · intro t ht
      obtain ⟨head, hc, hpc⟩ := ht.chain
      have hhead : head = none := by cases src <;> simpa [linked] using hc
      refine ⟨ht.resumed, ht.stale, .inl ⟨?_, ht.work⟩⟩
      cases src <;> simp_all [Source.linkFirst, startPc]
    · intro t l t' _ ht hs
      obtain ⟨hres, hstale, hpc⟩ := ht
      cases l with
      | loop =>
        have hs : loopStep t = some t' := hs
        unfold loopStep at hs
        rcases hpc with ⟨hpc, hwork⟩ | ⟨hpc, _⟩
        · simp only [hpc] at hs
          cases hs
          exact ⟨hres, hstale, .inr ⟨rfl, by simp [hwork]⟩⟩
        · simp [hpc] at hs
      | behave i v =>
        obtain ⟨_, hs⟩ := Option.ite_none_right_eq_some.mp hs
        cases hs
        exact ⟨hres, hstale, hpc⟩
  obtain ⟨hres, hstale, hpc⟩ := hinv
  have hcap : captured src ([] : List ι) = [] := by cases src <;> rfl
  refine ⟨hstale, ?_, ?_, loopStep_isSome, ?_⟩
  · simp [hres, hcap]
  · simp [hres, hcap]
  · rcases hpc with ⟨_, hwork⟩ | ⟨_, hwork⟩ <;> omega

/-- The first two operations on a list that is not empty are a resume and a
read of the link of the awaiter that was resumed. -/
theorem stale_of_cons {src : Source} (hsrc : src.linkFirst = false) {a : ι} {ws : List ι}
    (hws : (a :: ws).Nodup) : ∃ s, (machine src (a :: ws)).Reachable s ∧ s.stale = true := by
  obtain ⟨next, hnext⟩ := Chain.exists_links hws
  let s0 : State ι := ⟨next, none, .submit (some a), [], false, 0⟩
  have h0 : (machine src (a :: ws)).init s0 := by
    refine ⟨⟨some a, ?_, ?_⟩, rfl, rfl, rfl, rfl⟩
    · cases src <;> simp_all [Source.linkFirst, linked, s0]
    · cases src <;> simp_all [Source.linkFirst, startPc, s0]
  refine Machine.reachable_of_run (l := [.loop, .loop]) (p := fun s => s.stale) h0 ?_
  simp [Machine.run, Machine.runUnder, machine, step, loopStep, s0, State.resume, State.read]

/-- The broadcast keeps its promise on every list of waiters and for any
behaviour of the resumed ones exactly for the functions that read the link
first, and for the other two only when nobody is captured. -/
theorem broadcast_safe_iff (src : Source) (ws : List ι) (hws : ws.Nodup) :
    (∀ s, (machine src ws).Reachable s → Safe src ws s) ↔
      src.linkFirst = true ∨ ws = [] := by
  constructor
  · intro hsafe
    by_contra hnot
    have hsrc : src.linkFirst = false := by
      cases hl : src.linkFirst with
      | true => exact absurd (.inl hl) hnot
      | false => rfl
    cases ws with
    | nil => exact hnot (.inr rfl)
    | cons a ws =>
      obtain ⟨s, hs, hstale⟩ := stale_of_cons hsrc hws
      have hfresh := (hsafe s hs).no_stale_read
      rw [hstale] at hfresh
      cases hfresh
  · intro h s hs
    by_cases hsrc : src.linkFirst = true
    · have hinv := Machine.Reachable.invariant (I := Inv src ws)
        (fun _ h0 => Inv.init hsrc h0) (fun _ _ _ _ hi hst => Inv.step hi hst) hs
      exact hinv.safe
    · have hnil : ws = [] := h.resolve_left hsrc
      subst hnil
      exact safe_of_empty (by simpa using hsrc) hs

theorem broadcast_safe_iff_three :
    [0, 1, 2].Nodup ∧
      ((∀ s, (machine Source.notifyAll [0, 1, 2]).Reachable s →
        Safe Source.notifyAll [0, 1, 2] s) ↔
        Source.notifyAll.linkFirst = true ∨ [0, 1, 2] = []) :=
  ⟨by decide, broadcast_safe_iff .notifyAll [0, 1, 2] (by decide)⟩

/-- `wait_group::done` with two waiters.  The first one is resumed and its
storage is used for a fresh awaiter with a null link before the loop reads
it, so the loop ends and the second waiter is never resumed. -/
theorem done_loses_waiter :
    ∃ s : State Nat, (machine .done [0, 1]).Reachable s ∧ s.stale = true ∧
      s.pc = .finished ∧ 1 ∈ captured .done [0, 1] ∧ 1 ∉ s.resumed := by
  let s0 : State Nat := ⟨fun i => if i = 0 then some 1 else none, none, .submit (some 0), [],
    false, 0⟩
  have h0 : (machine .done [0, 1]).init s0 :=
    ⟨⟨some 0, by simp [linked, s0], rfl⟩, rfl, rfl, rfl, rfl⟩
  have hrun : ((machine .done [0, 1]).run s0 [.loop, .behave 0 none, .loop, .loop]).map
      (fun s => decide (s.stale = true ∧ s.pc = .finished ∧ 1 ∉ s.resumed)) = some true := by
    decide
  obtain ⟨s, hs, htest⟩ := Machine.reachable_of_run h0 hrun
  obtain ⟨hstale, hpc, hnot⟩ := of_decide_eq_true htest
  exact ⟨s, hs, hstale, hpc, by decide, hnot⟩

end SheepCoro.Broadcast
