import SheepCoro.Event.Model
import SheepCoro.Container

/-!
# Events with a value

`event<T>` of `include/coro/comp/event.hpp`: an event and a container.
`set(value)` stores the value and then sets the state; a waiter reads the
container when it runs again, which is some time after it was let go.

The store is not guarded by the state.  It is made before the exchange that
decides which call sets the event, and it is made also when the event is set
already.  `Keeps` is what a run has to meet for the waiters to agree: the
exchange that sets the event finds the value of its own call in the container,
and a later call stores the value that is there.
-/

namespace SheepCoro.EventValue

open Lib Container

/-- The container of an event, by the two class templates.  Nothing stores an
exception here, and none gets through the `noexcept` of `await_resume`, so
there is one for all. -/
inductive Box (T : Type)
  | general (x : Variant T Unit)
  | pod (x : Pod T Unit)

def Box.returnValue {T : Type} (value : T) : Box T → Box T
  | .general x => .general (x.call (.returnValue value))
  | .pod x => .pod (x.call (.returnValue value))

/-- `result()` as `await_resume` returns it. -/
def Box.result {T : Type} [Inhabited T] : Box T → Outcome T Unit
  | .general x => Pod.noexcept (x.result ())
  | .pod x => x.result

/-- A new container. -/
def Box.Unset {T : Type} : Box T → Prop
  | .general x => x = .unsetReturnValue
  | .pod x => x = Pod.new

@[simp] theorem Box.result_returnValue {T : Type} [Inhabited T] (value : T) (box : Box T) :
    (box.returnValue value).result = .returned value := by
  cases box <;> rfl

structure State (ι δ T : Type) where
  ev : Event.State ι δ
  box : Box T
  /-- The argument of the call of `set` that a caller is in. -/
  arg : δ → Option T
  /-- The coroutine was let go, and has not called `result` yet. -/
  pending : ι → Bool

inductive Label (ι δ T : Type)
  /-- `set(value)` up to the call of `set_state`: `return_value`. -/
  | store (d : δ) (value : T)
  | event (l : Event.Label ι δ)
  /-- `await_resume`. -/
  | result (i : ι)

variable {ι δ T : Type} [DecidableEq ι] [DecidableEq δ] [Inhabited T]

/-- Who goes on behind its `co_await` in a step of the event. -/
def goesOn (e : Event.State ι δ) : Event.Label ι δ → Option ι
  | .isSet i | .load i => if e.word = .set then some i else none
  | .submit d =>
    match e.set d with
    | .submit a => some a
    | _ => none
  | _ => none

def letGo (pending : ι → Bool) : Option ι → ι → Bool
  | none => pending
  | some i => Function.update pending i true

/-- The step of the event may be taken now: a call of `set` begins with
`store`, and a coroutine does not wait again before it has its result. -/
def enabled (s : State ι δ T) : Event.Label ι δ → Bool
  | .set _ => false
  | .wait i => !s.pending i
  | _ => true

def step (s : State ι δ T) : Label ι δ T → Option (State ι δ T)
  | .store d value =>
    (Event.step s.ev (.set d)).map fun e =>
      { s with
        ev := e
        box := s.box.returnValue value
        arg := Function.update s.arg d (some value) }
  | .event l =>
    if enabled s l = true then
      (Event.step s.ev l).map fun e =>
        { s with ev := e, pending := letGo s.pending (goesOn s.ev l) }
    else none
  | .result i =>
    if s.pending i = true then some { s with pending := Function.update s.pending i false }
    else none

/-- An event that was constructed without `initial_set`. -/
structure Init (s : State ι δ T) : Prop where
  ev : Event.Init false s.ev
  box : s.box.Unset
  pending : ∀ i, s.pending i = false

variable (ι δ T) in
def machine : Machine (State ι δ T) (Label ι δ T) where
  init := Init
  step := step

/-- The value of the call whose exchange sets the event in a step. -/
def winner (s : State ι δ T) : Label ι δ T → List T
  | .event (.exchange d) => if s.ev.word = .set then [] else (s.arg d).toList
  | _ => []

/-- What a waiter returns in a step. -/
def returned (s : State ι δ T) : Label ι δ T → List (ι × Outcome T Unit)
  | .result i => [(i, s.box.result)]
  | _ => []

/-- A store into an event that is set stores what is there, and the exchange
that sets the event finds the value of its call. -/
def Keeps (s : State ι δ T) : Label ι δ T → Prop
  | .store _ value => s.ev.word = .set → s.box.result = .returned value
  | .event (.exchange d) =>
    s.ev.word ≠ .set → ∀ value ∈ s.arg d, s.box.result = .returned value
  | _ => True

instance [DecidableEq T] (s : State ι δ T) : DecidablePred (Keeps s)
  | .store _ _ => inferInstanceAs (Decidable (_ → _))
  | .event (.exchange _) => inferInstanceAs (Decidable (_ → _))
  | .event (.wait _) | .event (.isSet _) | .event (.load _) | .event (.cas _ _)
  | .event (.set _) | .event (.submit _) | .event (.advance _) | .event (.reuse _ _)
  | .result _ => isTrue trivial

/-- The steps of a call of `set` up to the decision whether there is anybody to
resume. -/
def ofSet : Label ι δ T → Option δ
  | .store d _ => some d
  | .event (.exchange d) => some d
  | _ => none

/-- A waiter that calls `result` now returns the value of the call that has set
the event. -/
def ValueNow (winners : List T) (s : State ι δ T) : Prop :=
  s.ev.word = .set → ∃ value, winners = [value] ∧ s.box.result = .returned value

/-- A step of a caller that nobody else can see. -/
structure Unseen (s s' : State ι δ T) (d : δ) : Prop where
  word : s'.ev.word = s.ev.word
  next : s'.ev.next = s.ev.next
  wait : s'.ev.wait = s.ev.wait
  others : ∀ d', d' ≠ d → s'.ev.set d' = s.ev.set d'
  /-- It resumes nobody. -/
  resumes : ∀ a, s'.ev.set d ≠ .submit a
  pending : s'.pending = s.pending
  result : s'.box.result = s.box.result

section Lemmas

variable {s₀ s s' : State ι δ T} {as : List (Label ι δ T)} {e : Event.State ι δ}

/-- The values that the calls had whose exchange set the event. -/
def winners (s₀ : State ι δ T) (as : List (Label ι δ T)) : List T :=
  (machine ι δ T).shown winner s₀ as

/-- What the waiters have returned. -/
def results (s₀ : State ι δ T) (as : List (Label ι δ T)) : List (ι × Outcome T Unit) :=
  (machine ι δ T).shown returned s₀ as

/-- Every waiter has returned the value of the call that has set the event. -/
def AllAgree (s₀ : State ι δ T) (as : List (Label ι δ T)) : Prop :=
  ∀ r ∈ results s₀ as, ∃ value, winners s₀ as = [value] ∧ r.2 = .returned value

omit [DecidableEq δ] in
theorem goesOn_proceeds {l : Event.Label ι δ} {i : ι} (h : goesOn e l = some i) :
    Event.Proceeds e l i := by
  cases l with
  | isSet j | load j =>
    obtain ⟨hword, hj⟩ := Option.ite_none_right_eq_some.mp h
    exact ⟨Option.some.inj hj, hword⟩
  | submit d =>
    simp only [goesOn] at h
    split at h
    · rename_i a ha
      cases h
      exact ha
    · cases h
  | wait | cas | set | exchange | advance | reuse => cases h

/-- The waiters agree with the call that has set the event. -/
structure Agrees (s₀ : State ι δ T) (as : List (Label ι δ T)) (s : State ι δ T) : Prop where
  unset : s.ev.word ≠ .set → Event.Calls s.ev ∧ (∀ i, s.pending i = false) ∧
    winners s₀ as = [] ∧ results s₀ as = []
  set : s.ev.word = .set → ∃ value, winners s₀ as = [value] ∧ s.box.result = .returned value ∧
    ∀ r ∈ results s₀ as, r.2 = .returned value
  arg : ∀ d, s.ev.set d = .exchange → ∃ value, s.arg d = some value

theorem Agrees.init (h : Init s) : Agrees s [] s where
  unset _ := ⟨fun d => .inl (h.ev.set_out d), h.pending, rfl, rfl⟩
  set hword := by
    rw [h.ev.word_eq] at hword
    cases hword
  arg d hd := by
    rw [h.ev.set_out d] at hd
    cases hd

section Concat

variable {l : Label ι δ T} (hrun : (machine ι δ T).run s₀ as = some s) (hs : step s l = some s')
include hrun hs

omit [Inhabited T] in
theorem winners_concat : winners s₀ (as ++ [l]) = winners s₀ as ++ winner s l :=
  Machine.shown_concat hrun hs

theorem results_concat : results s₀ (as ++ [l]) = results s₀ as ++ returned s l :=
  Machine.shown_concat hrun hs

/-- A step that neither sets the event nor returns anything. -/
theorem shown_none (hwinner : winner s l = []) (hreturned : returned s l = []) :
    winners s₀ (as ++ [l]) = winners s₀ as ∧ results s₀ (as ++ [l]) = results s₀ as := by
  rw [winners_concat hrun hs, results_concat hrun hs, hwinner, hreturned, List.append_nil,
    List.append_nil]
  exact ⟨rfl, rfl⟩

end Concat

omit [Inhabited T] in
theorem step_event {l : Event.Label ι δ} (hs : step s (.event l) = some s') :
    ∃ e, enabled s l = true ∧ Event.step s.ev l = some e ∧
      s' = { s with ev := e, pending := letGo s.pending (goesOn s.ev l) } := by
  obtain ⟨henabled, hs⟩ := Option.ite_none_right_eq_some.mp hs
  obtain ⟨e, he, rfl⟩ := Option.map_eq_some_iff.mp hs
  exact ⟨e, henabled, he, rfl⟩

theorem Agrees.store {d : δ} {value : T} (h : Agrees s₀ as s)
    (hrun : (machine ι δ T).run s₀ as = some s) (hkeeps : Keeps s (.store d value))
    (hs : step s (.store d value) = some s') : Agrees s₀ (as ++ [.store d value]) s' := by
  obtain ⟨hwinners, hresults⟩ := shown_none hrun hs rfl rfl
  obtain ⟨e, he, rfl⟩ := Option.map_eq_some_iff.mp hs
  obtain ⟨_, ⟨⟩⟩ := Option.ite_none_right_eq_some.mp he
  refine ⟨fun hword => ?_, fun hword => ?_, fun d' hd' => ?_⟩
  · obtain ⟨hcalls, hpending, hnone, hnone'⟩ := h.unset hword
    refine ⟨fun d' => ?_, hpending, hwinners.trans hnone, hresults.trans hnone'⟩
    by_cases hd : d' = d
    · exact .inr (update_eq_of (fun _ => rfl) fun hne => absurd hd hne)
    · simpa [hd] using hcalls d'
  · obtain ⟨v, hv, hresult, hall⟩ := h.set hword
    rw [hkeeps hword] at hresult
    cases hresult
    rw [hwinners, hresults]
    exact ⟨value, hv, Box.result_returnValue .., hall⟩
  · by_cases hd : d' = d
    · exact ⟨value, update_eq_of (fun _ => rfl) fun hne => absurd hd hne⟩
    · obtain ⟨v, hv⟩ := h.arg d' ((Function.update_of_ne hd ..).symm.trans hd')
      exact ⟨v, (Function.update_of_ne hd ..).trans hv⟩

omit [DecidableEq ι] in
theorem exists_list {w : Event.Word ι} (h : w ≠ .set) : ∃ head, w = .list head := by
  cases w with
  | set => exact absurd rfl h
  | list head => exact ⟨head, rfl⟩

omit [Inhabited T] in
/-- Only the exchange that sets the event has a value to show. -/
theorem winner_eq_nil {l : Event.Label ι δ} (he : Event.step s.ev l = some e)
    (h : s.ev.word = .set ∨ e.word ≠ .set) : winner s (.event l) = [] := by
  cases l with
  | exchange d =>
    obtain ⟨_, ⟨⟩⟩ := Option.ite_none_right_eq_some.mp he
    exact if_pos (h.resolve_right fun hne => hne rfl)
  | wait | isSet | load | cas | set | submit | advance | reuse => rfl

/-- Nobody goes on before the event is set. -/
theorem Agrees.goesOn_eq_none (h : Agrees s₀ as s) (hword : s.ev.word ≠ .set)
    (l : Event.Label ι δ) : goesOn s.ev l = none := by
  cases hl : goesOn s.ev l with
  | none => rfl
  | some i =>
    have hset := Event.proceeds_set (fun _ _ => (h.unset hword).1) (goesOn_proceeds hl)
    exact absurd hset hword

theorem Agrees.event {l : Event.Label ι δ} (h : Agrees s₀ as s)
    (hrun : (machine ι δ T).run s₀ as = some s) (hkeeps : Keeps s (.event l))
    (hs : step s (.event l) = some s') : Agrees s₀ (as ++ [.event l]) s' := by
  obtain ⟨e, henabled, he, rfl⟩ := step_event hs
  have harg : ∀ d, e.set d = .exchange → ∃ value, s.arg d = some value := by
    intro d hd
    refine h.arg d (Event.step_exchange he hd ?_)
    rintro rfl
    cases henabled
  by_cases hword : s.ev.word = .set
  · -- The event is set and stays so.
    have hstays := (Event.step_set hword he).1
    obtain ⟨hwinners, hresults⟩ := shown_none hrun hs (winner_eq_nil he (.inl hword)) rfl
    refine ⟨fun hne => absurd hstays hne, fun _ => ?_, harg⟩
    rw [hwinners, hresults]
    exact h.set hword
  · obtain ⟨hcalls, hpending, hnone, hnone'⟩ := h.unset hword
    by_cases hset : e.word = .set
    · -- This is the exchange that sets it.
      obtain ⟨head, hhead⟩ := exists_list hword
      obtain ⟨d, rfl, hd⟩ := Event.step_sets hhead he hset
      obtain ⟨value, hvalue⟩ := h.arg d hd
      refine ⟨fun hne => absurd hset hne, fun _ => ⟨value, ?_, ?_, ?_⟩, harg⟩
      · rw [winners_concat hrun hs, hnone]
        simp [winner, hword, hvalue]
      · exact hkeeps hword value hvalue
      · rw [results_concat hrun hs, hnone']
        simp [returned]
    · obtain ⟨hwinners, hresults⟩ := shown_none hrun hs (winner_eq_nil he (.inr hset)) rfl
      obtain ⟨head, hhead⟩ := exists_list hset
      refine ⟨fun _ => ⟨Event.step_calls hcalls he hhead, ?_, hwinners.trans hnone,
        hresults.trans hnone'⟩, fun hne => absurd hne hset, harg⟩
      rw [h.goesOn_eq_none hword l]
      exact hpending

theorem Agrees.result {i : ι} (h : Agrees s₀ as s)
    (hrun : (machine ι δ T).run s₀ as = some s) (hs : step s (.result i) = some s') :
    Agrees s₀ (as ++ [.result i]) s' := by
  have hwinners : winners s₀ (as ++ [.result i]) = winners s₀ as :=
    (winners_concat hrun hs).trans (List.append_nil _)
  have hresults : results s₀ (as ++ [.result i]) = results s₀ as ++ [(i, s.box.result)] :=
    results_concat hrun hs
  obtain ⟨hi, ⟨⟩⟩ := Option.ite_none_right_eq_some.mp hs
  refine ⟨fun hword => ?_, fun hword => ?_, h.arg⟩
  · have hnot := (h.unset hword).2.1 i
    rw [hi] at hnot
    cases hnot
  · obtain ⟨value, hv, hresult, hall⟩ := h.set hword
    rw [hwinners, hresults]
    refine ⟨value, hv, hresult, fun r hr => ?_⟩
    rcases List.mem_append.mp hr with hr | hr
    · exact hall r hr
    · rw [List.mem_singleton.mp hr]
      exact hresult

theorem Agrees.step {l : Label ι δ T} (h : Agrees s₀ as s)
    (hrun : (machine ι δ T).run s₀ as = some s) (hkeeps : Keeps s l)
    (hs : step s l = some s') : Agrees s₀ (as ++ [l]) s' := by
  cases l with
  | store d value => exact h.store hrun hkeeps hs
  | event l => exact h.event hrun hkeeps hs
  | result i => exact h.result hrun hs

/-- A call of `set` on an event that is set: nobody can tell. -/
theorem unseen_step {l : Label ι δ T} {d : δ} (hword : s.ev.word = .set) (hkeeps : Keeps s l)
    (hd : ofSet l = some d) (hs : step s l = some s') : Unseen s s' d := by
  cases l with
  | store d' value =>
    cases hd
    obtain ⟨e, he, rfl⟩ := Option.map_eq_some_iff.mp hs
    obtain ⟨_, ⟨⟩⟩ := Option.ite_none_right_eq_some.mp he
    refine ⟨rfl, rfl, rfl, fun d' hne => Function.update_of_ne hne .., fun a => ?_, rfl, ?_⟩
    · simp
    · rw [hkeeps hword]
      exact Box.result_returnValue ..
  | event l =>
    cases l with
    | exchange d' =>
      cases hd
      obtain ⟨e, _, he, rfl⟩ := step_event hs
      obtain ⟨_, ⟨⟩⟩ := Option.ite_none_right_eq_some.mp he
      refine ⟨hword.symm, rfl, rfl, fun d' hne => Function.update_of_ne hne .., fun a => ?_, rfl,
        rfl⟩
      simp [hword, Event.takenPc]
    | wait | isSet | load | cas | set | submit | advance | reuse => cases hd
  | result i => cases hd

/-- The invariant of the runs that meet the condition. -/
theorem agrees_run (h0 : Init s₀) (hrun : (machine ι δ T).run s₀ as = some s)
    (hkeeps : (machine ι δ T).Along (fun s l _ => Keeps s l) s₀ as) : Agrees s₀ as s :=
  Machine.Along.path_invariant (I := Agrees s₀) (Agrees.init h0)
    (fun _ _ _ _ hrun h hkeeps hs => h.step hrun hkeeps hs) hkeeps hrun

theorem Agrees.valueNow (h : Agrees s₀ as s) : ValueNow (winners s₀ as) s := by
  intro hword
  obtain ⟨value, hv, hresult, _⟩ := h.set hword
  exact ⟨value, hv, hresult⟩

/-- A step that does not meet the condition leaves another value for the
waiters than that of the call that has set the event. -/
theorem Agrees.keeps {l : Label ι δ T} (h : Agrees s₀ as s)
    (hrun : (machine ι δ T).run s₀ as = some s) (hs : EventValue.step s l = some s')
    (hnow : ValueNow (winners s₀ (as ++ [l])) s') : Keeps s l := by
  rw [winners_concat hrun hs] at hnow
  cases l with
  | store d value =>
    intro hword
    obtain ⟨e, he, rfl⟩ := Option.map_eq_some_iff.mp hs
    obtain ⟨_, ⟨⟩⟩ := Option.ite_none_right_eq_some.mp he
    obtain ⟨v, hv, hresult, _⟩ := h.set hword
    obtain ⟨v', hv', hresult'⟩ := hnow hword
    rw [hv] at hv'
    cases hv'
    rw [Box.result_returnValue] at hresult'
    rw [hresult, hresult']
  | event l =>
    cases l with
    | exchange d =>
      intro hword value hvalue
      have hwinner : winner s (.event (.exchange d)) = [value] := by
        simp [winner, hword, Option.mem_def.mp hvalue]
      obtain ⟨e, _, he, rfl⟩ := step_event hs
      obtain ⟨_, ⟨⟩⟩ := Option.ite_none_right_eq_some.mp he
      obtain ⟨v, hv, hresult⟩ := hnow rfl
      rw [(h.unset hword).2.2.1, hwinner] at hv
      cases hv
      exact hresult
    | wait | isSet | load | cas | set | submit | advance | reuse => trivial
  | result i => trivial

end Lemmas

/-- At every moment of a run the container has the value of the call that has
set the event, if the event is set, exactly when the stores keep the value.
Then every waiter returns that value, and a call of `set` on an event that is
set does nothing that anybody can see. -/
theorem waiters_agree_iff (s₀ s : State ι δ T) (as : List (Label ι δ T)) (h0 : Init s₀)
    (hrun : (machine ι δ T).run s₀ as = some s) :
    ((∀ pre u, pre <+: as → (machine ι δ T).run s₀ pre = some u →
        ValueNow (winners s₀ pre) u) ↔
      (machine ι δ T).Along (fun s l _ => Keeps s l) s₀ as) ∧
    ((machine ι δ T).Along (fun s l _ => Keeps s l) s₀ as →
      AllAgree s₀ as ∧
      (machine ι δ T).Along
        (fun s l s' => s.ev.word = .set → ∀ d, ofSet l = some d → Unseen s s' d) s₀ as) := by
  constructor
  · induction as using List.reverseRecOn generalizing s with
    | nil =>
      refine ⟨fun _ => trivial, fun _ pre u hpre hu => ?_⟩
      rw [List.prefix_nil.mp hpre] at hu ⊢
      cases hu
      exact (Agrees.init h0).valueNow
    | append_singleton as l ih =>
      obtain ⟨u, hu, hs⟩ := Machine.run_concat.mp hrun
      constructor
      · intro hnow
        have hearlier := (ih u hu).mp fun pre v hpre => hnow pre v (hpre.trans ⟨[l], rfl⟩)
        have hlast := (agrees_run h0 hu hearlier).keeps hu hs (hnow _ s (List.prefix_refl _) hrun)
        exact hearlier.snoc hu hs hlast
      · intro hkeeps pre v hpre hv
        rcases List.prefix_concat_iff.mp hpre with rfl | hpre
        · exact (agrees_run h0 hv hkeeps).valueNow
        · exact (ih u hu).mpr (hkeeps.concat hu hs).1 pre v hpre hv
  · intro hkeeps
    have h := agrees_run h0 hrun hkeeps
    refine ⟨fun r hr => ?_, hkeeps.imp fun s l s' hs hkeeps hword d hd =>
      unseen_step hword hkeeps hd hs⟩
    by_cases hword : s.ev.word = .set
    · obtain ⟨value, hv, _, hall⟩ := h.set hword
      exact ⟨value, hv, hall r hr⟩
    · rw [(h.unset hword).2.2.2] at hr
      cases hr

def start (box : Box Nat) : State Nat Bool Nat where
  ev := ⟨.list none, fun _ => none, fun _ => .out, fun _ => .out⟩
  box := box
  arg _ := none
  pending _ := false

theorem init_start (box : Box Nat) (h : box.Unset) : Init (start box) :=
  ⟨⟨rfl, fun _ => rfl, fun _ => rfl⟩, h, fun _ => rfl⟩

/-- One coroutine is suspended before the event is set, and another one comes
after a second call with the same value. -/
def sameValue : List (Label Nat Bool Nat) :=
  [.event (.wait 0), .event (.isSet 0), .event (.load 0), .event (.cas 0 false), .store false 7,
    .event (.exchange false), .event (.submit false), .store true 7, .event (.exchange true),
    .result 0, .event (.wait 1), .event (.isSet 1), .result 1]

theorem waiters_agree_same_value :
    results (start (.pod Pod.new)) sameValue = [(0, .returned 7), (1, .returned 7)] ∧
      AllAgree (start (.pod Pod.new)) sameValue := by
  have hrun : ((machine Nat Bool Nat).runUnder Keeps (start (.pod Pod.new)) sameValue).isSome =
      true := by decide
  obtain ⟨s, hs⟩ := Option.isSome_iff_exists.mp hrun
  obtain ⟨hkeeps, hs⟩ := Machine.Along.of_runUnder hs
  refine ⟨by decide, ?_⟩
  exact ((waiters_agree_iff _ s sameValue (init_start (.pod Pod.new) rfl) hs).2 hkeeps).1

/-- The last call is made between the wake-up of a waiter and its `result`. -/
def laterValue : List (Label Nat Bool Nat) :=
  [.event (.wait 0), .event (.isSet 0), .event (.load 0), .event (.cas 0 false), .store false 7,
    .event (.exchange false), .event (.submit false), .store true 8, .result 0]

/-- Two calls have stored their values when the first one sets the event. -/
def otherValue : List (Label Nat Bool Nat) :=
  [.store false 7, .store true 8, .event (.exchange false), .event (.wait 0), .event (.isSet 0),
    .result 0]

theorem not_allAgree {s₀ : State ι δ T} {as : List (Label ι δ T)} {i : ι} {value other : T}
    (hwinners : winners s₀ as = [value]) (hresults : results s₀ as = [(i, .returned other)])
    (hne : value ≠ other) : ¬ AllAgree s₀ as := by
  intro h
  obtain ⟨v, hv, hreturned⟩ := h (i, .returned other) (by simp [hresults])
  rw [hwinners] at hv
  cases hv
  cases hreturned
  exact hne rfl

/-- The waiter returns the value of the second call, after the first one has
set the event, or while it sets it. -/
theorem waiter_returns_other_value :
    (((machine Nat Bool Nat).run (start (.pod Pod.new)) laterValue).isSome = true ∧
      winners (start (.pod Pod.new)) laterValue = [7] ∧
      results (start (.pod Pod.new)) laterValue = [(0, .returned 8)] ∧
      ¬ AllAgree (start (.pod Pod.new)) laterValue) ∧
    ((machine Nat Bool Nat).run (start (.general .unsetReturnValue)) otherValue).isSome = true ∧
      winners (start (.general .unsetReturnValue)) otherValue = [7] ∧
      results (start (.general .unsetReturnValue)) otherValue = [(0, .returned 8)] ∧
      ¬ AllAgree (start (.general .unsetReturnValue)) otherValue := by
  have hlater : winners (start (.pod Pod.new)) laterValue = [7] := by decide
  have hlater' : results (start (.pod Pod.new)) laterValue = [(0, .returned 8)] := by decide
  have hother : winners (start (.general .unsetReturnValue)) otherValue = [7] := by decide
  have hother' : results (start (.general .unsetReturnValue)) otherValue = [(0, .returned 8)] := by
    decide
  exact ⟨⟨by decide, hlater, hlater', not_allAgree hlater hlater' (by decide)⟩,
    by decide, hother, hother', not_allAgree hother hother' (by decide)⟩

end SheepCoro.EventValue
