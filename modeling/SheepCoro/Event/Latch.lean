import SheepCoro.Event.Model
import Mathlib

/-!
# Latches

`include/coro/comp/latch.hpp`: a counter in front of an event.  The callers of
`count_down` (`δ`) are the callers of the event's `set`, and only those whose
`fetch_sub` returned at most `1` go on to it.

The constructor takes a `uint64_t`.  It compares it with zero as it is, and
stores it in an `int64_t`, which is what `count_down` compares.
-/

namespace SheepCoro.Latch

open Lib

/-- The value of an `int64_t` after it wrapped. -/
def wrap64 (x : Int) : Int := x.bmod (2 ^ 64)

structure State (ι δ : Type) where
  /-- `m_count`. -/
  count : Int
  /-- `m_ev`. -/
  ev : Event.State ι δ

inductive Label (ι δ : Type)
  /-- The `fetch_sub` of a `count_down`. -/
  | countDown (d : δ)
  | event (l : Event.Label ι δ)
deriving DecidableEq

variable {ι δ : Type} [DecidableEq ι] [DecidableEq δ]

def step (s : State ι δ) : Label ι δ → Option (State ι δ)
  | .countDown d =>
    if s.ev.set d = .out then
      if s.count ≤ 1 then
        (Event.step s.ev (.set d)).map fun e => ⟨wrap64 (s.count - 1), e⟩
      else some ⟨wrap64 (s.count - 1), s.ev⟩
    else none
  | .event (.set _) => none
  | .event l => (Event.step s.ev l).map fun e => { s with ev := e }

/-- `latch(count)`. -/
structure Init (count : Nat) (s : State ι δ) : Prop where
  count_eq : s.count = wrap64 count
  ev_init : Event.Init (decide (count ≤ 0)) s.ev

variable (ι δ) in
/-- A latch that was constructed with `count`. -/
def machine (count : Nat) : Machine (State ι δ) (Label ι δ) where
  init := Init count
  step := step

/-- How many `count_down` calls have performed their `fetch_sub`. -/
def fetches (as : List (Label ι δ)) : Nat :=
  as.countP fun l => match l with
    | .countDown _ => true
    | .event _ => false

/-- A `count_down` has completed its exchange that was the `count`-th one to
perform its `fetch_sub`, or a later one. -/
def Released (count : Nat) (as : List (Label ι δ)) : Prop :=
  ∃ pre d mid post, as = pre ++ .countDown d :: (mid ++ .event (.exchange d) :: post) ∧
    .countDown d ∉ mid ∧ count ≤ fetches pre + 1

/-- The coroutine goes on behind `co_await l.wait()`. -/
def Proceeds (s : State ι δ) : Label ι δ → ι → Prop
  | .event l, i => Event.Proceeds s.ev l i
  | .countDown _, _ => False

/-- What a latch promises about a run and the state after it.  Its event is
set when the latch was released, or has no count, and only then; nobody goes
on before `count` calls; and once the event is set, a step leaves it so,
and links and takes nobody. -/
structure Exact (count : Nat) (as : List (Label ι δ)) (s : State ι δ) : Prop where
  set_iff : s.ev.word = .set ↔ count = 0 ∨ Released count as
  proceeds : ∀ l s' i, step s l = some s' → Proceeds s l i → count ≤ fetches as
  surplus : ∀ l s', s.ev.word = .set → step s l = some s' → s'.ev.word = .set ∧
    ∀ l', l = .event l' → Event.linked s.ev l' = [] ∧ Event.captured s.ev l' = []

section Lemmas

variable {count : Nat} {s₀ s s' : State ι δ} {as : List (Label ι δ)} {l : Label ι δ} {d : δ}
  {e e' : Event.State ι δ}

section

omit [DecidableEq ι] [DecidableEq δ]

@[simp] theorem fetches_nil : fetches ([] : List (Label ι δ)) = 0 := rfl

@[simp] theorem fetches_countDown (as : List (Label ι δ)) (d : δ) :
    fetches (as ++ [.countDown d]) = fetches as + 1 := by
  simp [fetches]

@[simp] theorem fetches_event (as : List (Label ι δ)) (l : Event.Label ι δ) :
    fetches (as ++ [.event l]) = fetches as := by
  simp [fetches]

end

/-- The counter as the `int64_t` shows it, as long as it has not wrapped. -/
theorem wrap64_eq {x : Int} (h0 : -2 ^ 63 ≤ x) (h1 : x < 2 ^ 63) : wrap64 x = x := by
  unfold wrap64
  exact Int.bmod_eq_of_le (by omega) (by omega)

theorem wrap64_sub (x y : Int) : wrap64 (wrap64 x - y) = wrap64 (x - y) := by
  unfold wrap64
  rw [Int.sub_eq_add_neg, Int.bmod_add_bmod, ← Int.sub_eq_add_neg]

/-- The `fetch_sub` of a call that comes too early returns more than `1`, if the
count has fitted into the `int64_t`. -/
theorem count_of_le_one {n : Nat} (hcount : count < 2 ^ 63) (h : wrap64 (count - n) ≤ 1) :
    count ≤ n + 1 := by
  by_contra hlt
  rw [wrap64_eq (by omega) (by omega)] at h
  omega

section

omit [DecidableEq ι] [DecidableEq δ]

theorem Released.mono (h : Released count as) (l : Label ι δ) : Released count (as ++ [l]) := by
  obtain ⟨pre, d, mid, post, rfl, hmid, hle⟩ := h
  exact ⟨pre, d, mid, post ++ [l], by simp, hmid, hle⟩

theorem Released.fetches_le (h : Released count as) : count ≤ fetches as := by
  obtain ⟨pre, d, mid, post, rfl, _, hle⟩ := h
  simp only [fetches, List.countP_append, List.countP_cons] at hle ⊢
  simp only [if_true]
  omega

theorem Released.exchange_mem (h : Released count as) : ∃ d, .event (.exchange d) ∈ as := by
  obtain ⟨pre, d, mid, post, rfl, _, _⟩ := h
  exact ⟨d, by simp⟩

end

/-- A step of the latch is a `fetch_sub`, or one of the event that does not
begin a `set`. -/
theorem step_event {l : Event.Label ι δ} (hs : step s (.event l) = some s') :
    (∀ d, l ≠ .set d) ∧ ∃ e, Event.step s.ev l = some e ∧ s' = { s with ev := e } := by
  cases l with
  | set d => cases hs
  | _ =>
    obtain ⟨e, he, rfl⟩ := Option.map_eq_some_iff.mp hs
    exact ⟨by simp, e, he, rfl⟩

/-- A `fetch_sub`: the event does not change, or the caller goes on to set
it. -/
theorem step_countDown (hs : step s (.countDown d) = some s') :
    s.ev.set d = .out ∧ s'.count = wrap64 (s.count - 1) ∧
      (s'.ev = s.ev ∨ s.count ≤ 1 ∧
        s'.ev = { s.ev with set := Function.update s.ev.set d .exchange }) := by
  obtain ⟨hd, hs⟩ := Option.ite_none_right_eq_some.mp hs
  split at hs
  · rename_i hle
    obtain ⟨e, he, rfl⟩ := Option.map_eq_some_iff.mp hs
    obtain ⟨_, he⟩ := Option.ite_none_right_eq_some.mp he
    cases he
    exact ⟨hd, rfl, .inr ⟨hle, rfl⟩⟩
  · cases hs
    exact ⟨hd, rfl, .inl rfl⟩

/-- The counter, and what the pending exchanges and the event say about the
calls. -/
structure Counted (count : Nat) (as : List (Label ι δ)) (s : State ι δ) : Prop where
  count_eq : s.count = wrap64 (count - fetches as)
  pending : ∀ d, s.ev.set d = .exchange → ∃ pre mid, as = pre ++ .countDown d :: mid ∧
    .countDown d ∉ mid ∧ count ≤ fetches pre + 1
  released : s.ev.word = .set → count = 0 ∨ Released count as
  waiting : ∀ head, s.ev.word = .list head →
    count ≠ 0 ∧ (∀ d, .event (.exchange d) ∉ as) ∧ Event.Calls s.ev

omit [DecidableEq ι] [DecidableEq δ] in
theorem Counted.init (h : Init count s₀) : Counted count [] s₀ where
  count_eq := by simpa using h.count_eq
  pending d hd := by simp [h.ev_init.set_out d] at hd
  released hw := by
    have hword := h.ev_init.word_eq
    rw [hw] at hword
    left
    by_contra hne
    simp [hne] at hword
  waiting head hw := by
    have hword := h.ev_init.word_eq
    rw [hw] at hword
    refine ⟨?_, fun d => by simp, fun d => .inl (h.ev_init.set_out d)⟩
    rintro rfl
    simp at hword

omit [DecidableEq ι] [DecidableEq δ] in
/-- A call is pending for as long as its caller does not call again. -/
theorem Counted.pending_concat (h : Counted count as s) (hd : s.ev.set d = .exchange)
    (hl : l ≠ .countDown d) : ∃ pre mid, as ++ [l] = pre ++ .countDown d :: mid ∧
      .countDown d ∉ mid ∧ count ≤ fetches pre + 1 := by
  obtain ⟨pre, mid, rfl, hmid, hle⟩ := h.pending d hd
  refine ⟨pre, mid ++ [l], by simp, ?_, hle⟩
  rw [List.mem_append, List.mem_singleton]
  rintro (hmem | heq)
  · exact hmid hmem
  · exact hl heq.symm

theorem Counted.countDown (hcount : count < 2 ^ 63) (h : Counted count as s)
    (hs : step s (.countDown d) = some s') : Counted count (as ++ [.countDown d]) s' := by
  obtain ⟨hd, hvalue, hev⟩ := step_countDown hs
  have hword : s'.ev.word = s.ev.word := by
    rcases hev with hev | ⟨_, hev⟩ <;> rw [hev]
  refine ⟨?_, ?_, ?_, ?_⟩
  · rw [hvalue, h.count_eq, wrap64_sub, fetches_countDown]
    congr 1
    omega
  · intro e he
    by_cases hed : e = d
    · subst hed
      rcases hev with hev | ⟨hle, _⟩
      · rw [hev, hd] at he
        cases he
      · rw [h.count_eq] at hle
        exact ⟨as, [], rfl, by simp, count_of_le_one hcount hle⟩
    · have hold : s.ev.set e = .exchange := by
        rcases hev with hev | ⟨_, hev⟩
        · rwa [hev] at he
        · rw [hev] at he
          exact (Function.update_of_ne hed ..).symm.trans he
      apply h.pending_concat hold
      simpa using fun hde => hed hde.symm
  · intro hw
    exact (h.released (hword ▸ hw)).imp_right fun hr => hr.mono _
  · intro head hw
    obtain ⟨hne, hnone, hcalls⟩ := h.waiting head (hword ▸ hw)
    refine ⟨hne, fun e => by simpa using hnone e, ?_⟩
    rcases hev with hev | ⟨_, hev⟩
    · rw [hev]
      exact hcalls
    · rw [hev]
      intro e
      by_cases hed : e = d
      · exact .inr (update_eq_of (fun _ => rfl) fun hne => absurd hed hne)
      · simpa [hed] using hcalls e

omit [DecidableEq ι] [DecidableEq δ] in
/-- The exchange of a pending call releases the latch. -/
theorem Counted.exchange (h : Counted count as s) (hd : s.ev.set d = .exchange) :
    Released count (as ++ [.event (.exchange d)]) := by
  obtain ⟨pre, mid, rfl, hmid, hle⟩ := h.pending d hd
  exact ⟨pre, d, mid, [], by simp, hmid, hle⟩

theorem Counted.event {l : Event.Label ι δ} (h : Counted count as s)
    (hs : step s (.event l) = some s') : Counted count (as ++ [.event l]) s' := by
  obtain ⟨hset, e, he, rfl⟩ := step_event hs
  refine ⟨?_, ?_, ?_, ?_⟩
  · rw [fetches_event]
    exact h.count_eq
  · intro d hd
    exact h.pending_concat (Event.step_exchange he hd (hset d)) (by simp)
  · intro hw
    cases hword : s.ev.word with
    | set => exact (h.released hword).imp_right fun hr => hr.mono _
    | list head =>
      obtain ⟨d, rfl, hd⟩ := Event.step_sets hword he hw
      exact .inr (h.exchange hd)
  · intro head hw
    cases hword : s.ev.word with
    | set =>
      have hstill := (Event.step_set hword he).1
      cases hstill.symm.trans hw
    | list head' =>
      obtain ⟨hne, hnone, hcalls⟩ := h.waiting head' hword
      refine ⟨hne, fun d hmem => ?_, Event.step_calls hcalls he hw⟩
      rcases List.mem_append.mp hmem with hmem | hmem
      · exact hnone d hmem
      · rw [List.mem_singleton] at hmem
        cases hmem
        obtain ⟨_, he⟩ := Option.ite_none_right_eq_some.mp he
        cases he
        cases hw

theorem counted (hcount : count < 2 ^ 63) (h0 : Init count s₀)
    (hrun : (machine ι δ count).run s₀ as = some s) : Counted count as s := by
  refine Machine.path_invariant (I := Counted count) (.init h0) ?_ hrun
  intro as s l s' _ hi hs
  cases l with
  | countDown d => exact hi.countDown hcount hs
  | event l => exact hi.event hs

theorem Counted.exact (h : Counted count as s) : Exact count as s where
  set_iff := by
    refine ⟨h.released, fun hr => ?_⟩
    cases hword : s.ev.word with
    | set => rfl
    | list head =>
      obtain ⟨hne, hnone, _⟩ := h.waiting head hword
      rcases hr with hzero | hr
      · exact absurd hzero hne
      · obtain ⟨d, hd⟩ := hr.exchange_mem
        exact absurd hd (hnone d)
  proceeds l s' i _ hp := by
    cases l with
    | countDown d => exact hp.elim
    | event l =>
      have hword := Event.proceeds_set (fun head hw => (h.waiting head hw).2.2) hp
      rcases h.released hword with rfl | hr
      · exact Nat.zero_le _
      · exact hr.fetches_le
  surplus l s' hword hs := by
    cases l with
    | countDown d =>
      obtain ⟨_, _, hev | ⟨_, hev⟩⟩ := step_countDown hs
      · exact ⟨hev ▸ hword, by simp⟩
      · exact ⟨by rw [hev]; exact hword, by simp⟩
    | event l =>
      obtain ⟨_, e, he, rfl⟩ := step_event hs
      obtain ⟨hstill, hquiet⟩ := Event.step_set hword he
      refine ⟨hstill, fun l' hl => ?_⟩
      cases hl
      exact hquiet

end Lemmas

/-! ## The range of the count -/

/-- A new latch. -/
def start (count : Nat) : State ι δ where
  count := wrap64 count
  ev :=
    { word := if count = 0 then .set else .list none
      next := fun _ => none
      wait := fun _ => .out
      set := fun _ => .out }

theorem start_init (count : Nat) : (machine ι δ count).init (start count) where
  count_eq := by simp only [start]
  ev_init := ⟨by simp [start], fun _ => rfl, fun _ => rfl⟩

/-- The first `count_down` of a latch whose count is negative as an `int64_t`
sets the event. -/
theorem first_sets {count : Nat} (h0 : 2 ^ 63 ≤ count) (h1 : count < 2 ^ 64) (d : δ) :
    ∃ s : State ι δ, (machine ι δ count).run (start count)
      [.countDown d, .event (.exchange d)] = some s ∧ s.ev.word = .set := by
  have hneg : wrap64 count ≤ 1 := by
    have hmod : wrap64 count = count - 2 ^ 64 := by
      unfold wrap64
      rw [← Int.sub_bmod_right]
      exact Int.bmod_eq_of_le (by omega) (by omega)
    omega
  have hfirst : ∃ t, (machine ι δ count).step (start count) (.countDown d) = some t ∧
      t.ev.set d = .exchange := by
    simp [machine, step, start, hneg, Event.step]
  obtain ⟨t, ht, hd⟩ := hfirst
  have hsecond : ∃ s, (machine ι δ count).step t (.event (.exchange d)) = some s ∧
      s.ev.word = .set := by
    simp [machine, step, Event.step, hd]
  obtain ⟨s, hs, hword⟩ := hsecond
  exact ⟨s, Machine.run_cons.mpr ⟨t, ht, Machine.run_cons.mpr ⟨s, hs, rfl⟩⟩, hword⟩

omit [DecidableEq ι] [DecidableEq δ] in
/-- One call is not enough to release it. -/
theorem not_released_once {count : Nat} (h : 2 ≤ count) (d : δ) :
    ¬ Released count [.countDown d, (.event (.exchange d) : Label ι δ)] := by
  intro hr
  have hle := hr.fetches_le
  simp [fetches] at hle
  omega

/-- A latch keeps its promise in every run, for the counts that an `int64_t`
can hold and for no other. -/
theorem latch_exact_iff [Inhabited δ] {count : Nat} (hcount : count < 2 ^ 64) :
    (∀ (s₀ s : State ι δ) as, (machine ι δ count).init s₀ →
      (machine ι δ count).run s₀ as = some s → Exact count as s) ↔ count < 2 ^ 63 := by
  constructor
  · intro h
    by_contra hlarge
    obtain ⟨s, hrun, hword⟩ := first_sets (ι := ι) (δ := δ) (Nat.le_of_not_lt hlarge) hcount default
    have hexact := h _ s _ (start_init count) hrun
    rcases hexact.set_iff.mp hword with hzero | hr
    · omega
    · exact not_released_once (by omega) _ hr
  · intro hsmall s₀ s as h0 hrun
    exact (counted hsmall h0 hrun).exact

/-- Two calls; the second one sets the event. -/
theorem latch_exact_iff_two :
    ∃ s : State Nat Nat, (machine Nat Nat 2).run (start 2)
        [.countDown 0, .countDown 1, .event (.exchange 1)] = some s ∧ s.ev.word = .set ∧
      Exact 2 [.countDown 0, .countDown 1, .event (.exchange 1)] s := by
  have hrun : ((machine Nat Nat 2).run (start 2)
      [.countDown 0, .countDown 1, .event (.exchange 1)]).map
        (fun s => decide (s.ev.word = .set)) = some true := by decide
  obtain ⟨s, hs, htest⟩ := Option.map_eq_some_iff.mp hrun
  refine ⟨s, hs, of_decide_eq_true htest, ?_⟩
  exact (latch_exact_iff (by omega)).mpr (by omega) _ s _ (start_init 2) hs

/-- The smallest count that an `int64_t` cannot hold: the first of `2 ^ 63`
calls sets the event. -/
theorem large_count_releases_early :
    ∃ s : State Unit Unit, (machine Unit Unit (2 ^ 63)).init (start (2 ^ 63)) ∧
      (machine Unit Unit (2 ^ 63)).run (start (2 ^ 63))
        [.countDown (), .event (.exchange ())] = some s ∧ s.ev.word = .set ∧
      ¬ Exact (2 ^ 63) [.countDown (), .event (.exchange ())] s := by
  obtain ⟨s, hrun, hword⟩ :=
    first_sets (ι := Unit) (δ := Unit) (Nat.le_refl (2 ^ 63)) (by omega) ()
  refine ⟨s, start_init _, hrun, hword, fun hexact => ?_⟩
  rcases hexact.set_iff.mp hword with hzero | hr
  · omega
  · exact not_released_once (by omega) () hr

end SheepCoro.Latch
