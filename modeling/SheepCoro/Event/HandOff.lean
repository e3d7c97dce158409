import SheepCoro.Event.Model
import Mathlib.Data.Fintype.Basic

/-!
# The hand-off of an event

Every awaiter that is linked into an event is in the list that one `set`
takes, which is the one whose exchange changes the state.  What a run has
linked and what its `set` calls have taken are read off its steps
(`linkedIn`, `capturedIn`); they are not part of the state.

The `set` that took the list then submits its coroutines, one after the other
and each once (`Delivers`).  It reads the link of an awaiter behind the
`submit_task` of its coroutine, so this needs that the storage is left alone
until then (`KeepsLinks`).  Nothing else here does.
-/

namespace SheepCoro.Event

open Lib

variable {ι δ : Type} [DecidableEq ι] [DecidableEq δ]

/-- The awaiters whose compare and exchange has succeeded, the last one
first. -/
def linkedIn (s₀ : State ι δ) (as : List (Label ι δ)) : List ι :=
  ((machine ι δ false).shown linked s₀ as).reverse

/-- The `set` calls that have changed the state, with what they took. -/
def capturedIn (s₀ : State ι δ) (as : List (Label ι δ)) : List (δ × Option ι) :=
  (machine ι δ false).shown captured s₀ as

/-- The coroutines that `set` calls have submitted. -/
def submittedIn (s₀ : State ι δ) (as : List (Label ι δ)) : List (δ × ι) :=
  (machine ι δ false).shown submitted s₀ as

/-- The event before it is set: the list under the head is what the run has
linked, and these are the coroutines that are suspended. -/
structure Unset (s₀ : State ι δ) (as : List (Label ι δ)) (s : State ι δ) (head : Option ι) :
    Prop where
  chain : Chain s.next head (linkedIn s₀ as)
  suspended_iff : ∀ i, s.wait i = .suspended ↔ i ∈ linkedIn s₀ as
  calls : ∀ d, s.set d = .out ∨ s.set d = .exchange
  no_exchange : ∀ d, .exchange d ∉ as
  no_capture : capturedIn s₀ as = []
  no_submit : submittedIn s₀ as = []

/-- The event after it was set: one exchange has taken the list, and it was
the whole list, which the caller then works on. -/
def TakenOnce (s₀ : State ι δ) (as : List (Label ι δ)) : Prop :=
  ∃ pre d post u v head, as = pre ++ .exchange d :: post ∧
    (machine ι δ false).run s₀ pre = some u ∧ u.word = .list head ∧
    step u (.exchange d) = some v ∧ v.set d = loopPc head ∧
    Chain v.next head (linkedIn s₀ as) ∧ capturedIn s₀ as = [(d, head)]

/-- The `set` call `d` is in its loop and has the coroutines of the list left
to submit. -/
inductive Working (s : State ι δ) (d : δ) : List ι → Prop
  | submit {a : ι} {rest : List ι} (hd : s.set d = .submit a)
      (hchain : Chain s.next (s.next a) rest) : Working s d (a :: rest)
  | advance {a : ι} {rest : List ι} (hd : s.set d = .advance a) (hout : s.wait a = .out)
      (hchain : Chain s.next (s.next a) rest) : Working s d rest
  | idle (hd : s.set d = .out ∨ s.set d = .exchange) : Working s d []

/-- The `set` call `d` has submitted the coroutines that were linked, each
once, up to `rest`.  These are still suspended. -/
structure Delivers (s₀ : State ι δ) (as : List (Label ι δ)) (s : State ι δ) (d : δ)
    (rest : List ι) : Prop where
  taken : ∃ head, capturedIn s₀ as = [(d, head)]
  submitted : submittedIn s₀ as ++ rest.map (fun i => (d, i)) =
    (linkedIn s₀ as).map fun i => (d, i)
  working : Working s d rest
  suspended_iff : ∀ i, s.wait i = .suspended ↔ i ∈ rest
  others : ∀ e, e ≠ d → s.set e = .out ∨ s.set e = .exchange

structure HandOff (s₀ : State ι δ) (as : List (Label ι δ)) (s : State ι δ) : Prop where
  cas_next : ∀ i old, s.wait i = .cas old → s.next i = old
  unset : ∀ head, s.word = .list head → Unset s₀ as s head
  taken : s.word = .set → TakenOnce s₀ as

section Lemmas

variable {s₀ s s' : State ι δ} {as : List (Label ι δ)} {l : Label ι δ} {i : ι} {d : δ}
  {head : Option ι}

theorem linkedIn_concat (hrun : (machine ι δ false).run s₀ as = some s)
    (hs : Event.step s l = some s') :
    linkedIn s₀ (as ++ [l]) = (linked s l).reverse ++ linkedIn s₀ as := by
  unfold linkedIn
  rw [Machine.shown_concat hrun hs, List.reverse_append]

theorem capturedIn_concat (hrun : (machine ι δ false).run s₀ as = some s)
    (hs : Event.step s l = some s') :
    capturedIn s₀ (as ++ [l]) = capturedIn s₀ as ++ captured s l :=
  Machine.shown_concat hrun hs

theorem submittedIn_concat (hrun : (machine ι δ false).run s₀ as = some s)
    (hs : Event.step s l = some s') :
    submittedIn s₀ (as ++ [l]) = submittedIn s₀ as ++ Event.submitted s l :=
  Machine.shown_concat hrun hs

theorem HandOff.init (h : Init false s₀) : HandOff s₀ [] s₀ where
  cas_next i old hi := by simp [h.wait_out i] at hi
  unset head hw := by
    have hword : s₀.word = .list none := h.word_eq
    cases hword.symm.trans hw
    refine ⟨rfl, fun i => ?_, fun d => .inl (h.set_out d), fun d => by simp, rfl, rfl⟩
    simp [h.wait_out i, linkedIn, Machine.shown]
  taken hw := by
    have hword : s₀.word = .list none := h.word_eq
    cases hword.symm.trans hw

/-- An awaiter that was not linked is not in the list. -/
theorem Unset.not_mem (h : Unset s₀ as s head) (hi : s.wait i ≠ .suspended) :
    i ∉ linkedIn s₀ as :=
  fun hmem => hi ((h.suspended_iff i).mpr hmem)

/-- The links of the awaiters that are about to compare and exchange. -/
theorem HandOff.step_cas_next (h : HandOff s₀ as s) (hs : Event.step s l = some s') {old : Option ι}
    (hi : s'.wait i = .cas old) : s'.next i = old := by
  cases step_cases hs with
  | move j pc v _ _ hcas _ hstate =>
    subst hstate
    by_cases hij : i = j
    · subst hij
      simp only [Function.update_self] at hi ⊢
      exact hcas old hi
    · simp only [Function.update_of_ne hij] at hi ⊢
      exact h.cas_next i old hi
  | link j old' _ _ hstate =>
    subst hstate
    exact h.cas_next i old (of_update_eq hi (by simp))
  | turn d pc _ hstate =>
    subst hstate
    exact h.cas_next i old hi
  | exchange d _ _ hstate =>
    subst hstate
    exact h.cas_next i old hi
  | submit d a _ _ hstate =>
    subst hstate
    exact h.cas_next i old (of_update_eq hi (by simp))

/-- A step that captures nothing from an event that is not set is not an
exchange. -/
theorem Unset.quiet (h : Unset s₀ as s head) (hword : s.word = .list head)
    (hrun : (machine ι δ false).run s₀ as = some s) (hs : Event.step s l = some s')
    (hcaptured : captured s l = []) (hsubmitted : Event.submitted s l = []) :
    (∀ d, .exchange d ∉ as ++ [l]) ∧ capturedIn s₀ (as ++ [l]) = [] ∧
      submittedIn s₀ (as ++ [l]) = [] := by
  refine ⟨?_, ?_, ?_⟩
  · intro d hmem
    rcases List.mem_append.mp hmem with hmem | hmem
    · exact h.no_exchange d hmem
    · rw [List.mem_singleton] at hmem
      subst hmem
      simp [captured, hword] at hcaptured
  · rw [capturedIn_concat hrun hs, hcaptured, h.no_capture, List.append_nil]
  · rw [submittedIn_concat hrun hs, hsubmitted, h.no_submit, List.append_nil]

/-- One step of an event that is not set, and that does not set it. -/
theorem Unset.step (h : Unset s₀ as s head) (hcas : ∀ i old, s.wait i = .cas old → s.next i = old)
    (hword : s.word = .list head) (hrun : (machine ι δ false).run s₀ as = some s)
    (hs : Event.step s l = some s') {head' : Option ι} (hword' : s'.word = .list head') :
    Unset s₀ (as ++ [l]) s' head' := by
  have hlinkedIn := linkedIn_concat hrun hs
  cases step_cases hs with
  | move i pc v hold hnew _ _ hstate hlinked hcaptured hsubmitted =>
    subst hstate
    cases hword.symm.trans hword'
    have hquiet := h.quiet hword hrun hs hcaptured hsubmitted
    rw [hlinked, List.reverse_nil, List.nil_append] at hlinkedIn
    refine ⟨?_, ?_, h.calls, hquiet.1, hquiet.2.1, hquiet.2.2⟩
    · rw [hlinkedIn]
      exact h.chain.update (h.not_mem hold)
    · intro j
      rw [hlinkedIn, ← h.suspended_iff]
      by_cases hji : j = i
      · subst hji
        simp [hold, hnew]
      · simp [hji]
  | link i old hlist hi hstate hlinked hcaptured hsubmitted =>
    subst hstate
    cases hword.symm.trans hlist
    cases hword'
    have hquiet := h.quiet hword hrun hs hcaptured hsubmitted
    rw [hlinked, List.reverse_singleton, List.singleton_append] at hlinkedIn
    refine ⟨?_, ?_, h.calls, hquiet.1, hquiet.2.1, hquiet.2.2⟩
    · rw [hlinkedIn]
      refine ⟨rfl, ?_⟩
      rw [hcas i _ hi]
      exact h.chain
    · intro j
      rw [hlinkedIn, List.mem_cons, ← h.suspended_iff]
      by_cases hji : j = i
      · simp [hji]
      · simp [hji]
  | turn d pc hpc hstate hlinked hcaptured hsubmitted =>
    have hcalls := step_calls h.calls hs hword'
    subst hstate
    cases hword.symm.trans hword'
    have hquiet := h.quiet hword hrun hs hcaptured hsubmitted
    rw [hlinked, List.reverse_nil, List.nil_append] at hlinkedIn
    refine ⟨?_, ?_, hcalls, hquiet.1, hquiet.2.1, hquiet.2.2⟩
    · rw [hlinkedIn]
      exact h.chain
    · rw [hlinkedIn]
      exact h.suspended_iff
  | exchange d _ _ hstate _ =>
    subst hstate
    cases hword'
  | submit d a hd _ hstate _ _ => exact absurd hd (not_loop h.calls).1

/-- The exchange that sets the event takes the whole list. -/
theorem Unset.taken (h : Unset s₀ as s head) (hword : s.word = .list head)
    (hrun : (machine ι δ false).run s₀ as = some s) (hs : Event.step s l = some s')
    (hword' : s'.word = .set) : TakenOnce s₀ (as ++ [l]) := by
  have hlinkedIn := linkedIn_concat hrun hs
  have hcapturedIn := capturedIn_concat hrun hs
  obtain ⟨d, rfl, hd⟩ := step_sets hword hs hword'
  have hcaptured : captured s (.exchange d) = [(d, head)] := by simp [captured, hword]
  have hlinked : linked s (.exchange d) = [] := rfl
  rw [hlinked, List.reverse_nil, List.nil_append] at hlinkedIn
  rw [hcaptured, h.no_capture, List.nil_append] at hcapturedIn
  have hstate := hs
  simp only [Event.step, if_pos hd, Option.some.injEq] at hstate
  subst hstate
  refine ⟨as, d, [], s, _, head, rfl, hrun, hword, hs, ?_, ?_, hcapturedIn⟩
  · simp only [Function.update_self, hword, takenPc]
  · rw [hlinkedIn]
    exact h.chain

/-- Nothing is linked or taken after that. -/
theorem TakenOnce.step (h : TakenOnce s₀ as) (hword : s.word = .set)
    (hrun : (machine ι δ false).run s₀ as = some s) (hs : Event.step s l = some s') :
    TakenOnce s₀ (as ++ [l]) := by
  obtain ⟨_, hlinked, hcaptured⟩ := step_set hword hs
  have hlinkedIn := linkedIn_concat hrun hs
  have hcapturedIn := capturedIn_concat hrun hs
  rw [hlinked, List.reverse_nil, List.nil_append] at hlinkedIn
  rw [hcaptured, List.append_nil] at hcapturedIn
  obtain ⟨pre, d, post, u, v, head, rfl, hu, hlist, hv, hloop, hchain, htaken⟩ := h
  refine ⟨pre, d, post ++ [l], u, v, head, by simp, hu, hlist, hv, hloop, ?_, ?_⟩
  · rw [hlinkedIn]
    exact hchain
  · rw [hcapturedIn]
    exact htaken

theorem HandOff.step (h : HandOff s₀ as s) (hrun : (machine ι δ false).run s₀ as = some s)
    (hs : Event.step s l = some s') : HandOff s₀ (as ++ [l]) s' where
  cas_next i old hi := h.step_cas_next hs hi
  unset head' hword' := by
    cases hword : s.word with
    | set =>
      have hset := (step_set hword hs).1
      cases hset.symm.trans hword'
    | list head => exact (h.unset head hword).step h.cas_next hword hrun hs hword'
  taken hword' := by
    cases hword : s.word with
    | set => exact (h.taken hword).step hword hrun hs
    | list head => exact (h.unset head hword).taken hword hrun hs hword'

theorem handOff (h0 : Init false s₀) (hrun : (machine ι δ false).run s₀ as = some s) :
    HandOff s₀ as s :=
  Machine.path_invariant (I := HandOff s₀) (.init h0) (fun _ _ _ _ hr hi hs => hi.step hr hs) hrun

/-! ## The list is submitted -/

omit [DecidableEq ι] [DecidableEq δ] in
theorem Working.of_loop {p : Option ι} {rest : List ι} (hd : s.set d = loopPc p)
    (hchain : Chain s.next p rest) : Working s d rest := by
  cases rest with
  | nil =>
    have hp : p = none := hchain
    subst hp
    exact .idle (.inl hd)
  | cons a rest =>
    obtain ⟨rfl, hrest⟩ := hchain
    exact .submit hd hrest

omit [DecidableEq ι] [DecidableEq δ] in
/-- A step of somebody else that leaves the list and the awaiter that the loop
is at alone. -/
theorem Working.congr {rest : List ι} (h : Working s d rest) (hset : s'.set d = s.set d)
    (hnext : ∀ i ∈ rest, s'.next i = s.next i)
    (hcur : ∀ a, s.set d = .advance a → s.wait a = .out → s'.next a = s.next a ∧ s'.wait a = .out) :
    Working s' d rest := by
  cases h with
  | @submit a rest hd hchain =>
    obtain ⟨hhead, htail⟩ := List.forall_mem_cons.mp hnext
    refine .submit (hset.trans hd) ?_
    rw [hhead]
    exact hchain.congr htail
  | @advance a _ hd hout hchain =>
    obtain ⟨hlink, hout'⟩ := hcur a hd hout
    refine .advance (hset.trans hd) hout' ?_
    rw [hlink]
    exact hchain.congr hnext
  | idle hd =>
    rw [← hset] at hd
    exact .idle hd

/-- The `set` that takes the list has all of it left. -/
theorem Unset.delivers (h : Unset s₀ as s head) (hword : s.word = .list head)
    (hrun : (machine ι δ false).run s₀ as = some s) (hs : Event.step s l = some s')
    (hword' : s'.word = .set) : ∃ d rest, Delivers s₀ (as ++ [l]) s' d rest := by
  have hlinkedIn := linkedIn_concat hrun hs
  have hcapturedIn := capturedIn_concat hrun hs
  have hsubmittedIn := submittedIn_concat hrun hs
  obtain ⟨d, rfl, hd⟩ := step_sets hword hs hword'
  have hcaptured : captured s (.exchange d) = [(d, head)] := by simp [captured, hword]
  have hlinked : linked s (.exchange d) = [] := rfl
  have hsubmitted : Event.submitted s (.exchange d) = [] := rfl
  rw [hlinked, List.reverse_nil, List.nil_append] at hlinkedIn
  rw [hcaptured, h.no_capture, List.nil_append] at hcapturedIn
  rw [hsubmitted, h.no_submit, List.append_nil] at hsubmittedIn
  simp only [Event.step, if_pos hd, Option.some.injEq] at hs
  subst hs
  refine ⟨d, linkedIn s₀ as, ⟨head, hcapturedIn⟩, ?_, ?_, h.suspended_iff, ?_⟩
  · rw [hsubmittedIn, hlinkedIn, List.nil_append]
  · refine .of_loop ?_ h.chain
    simp only [Function.update_self, hword, takenPc]
  · intro e he
    simp only [Function.update_of_ne he]
    exact h.calls e

/-- A step that submits nobody. -/
theorem Delivers.keep {rest : List ι} (h : Delivers s₀ as s d rest) (hword : s.word = .set)
    (hrun : (machine ι δ false).run s₀ as = some s) (hs : Event.step s l = some s')
    (hsubmitted : Event.submitted s l = []) (hworking : Working s' d rest)
    (hsuspended : ∀ i, s'.wait i = .suspended ↔ s.wait i = .suspended)
    (hothers : ∀ e, e ≠ d → s'.set e = .out ∨ s'.set e = .exchange) :
    Delivers s₀ (as ++ [l]) s' d rest := by
  obtain ⟨_, hlinked, hcaptured⟩ := step_set hword hs
  refine ⟨?_, ?_, hworking, fun i => (hsuspended i).trans (h.suspended_iff i), hothers⟩
  · rw [capturedIn_concat hrun hs, hcaptured, List.append_nil]
    exact h.taken
  · rw [submittedIn_concat hrun hs, hsubmitted, linkedIn_concat hrun hs, hlinked, List.append_nil]
    exact h.submitted

/-- Only the `set` that took the list is in a loop. -/
theorem Delivers.eq_of_loop {rest : List ι} {e : δ} {a : ι} (h : Delivers s₀ as s d rest)
    (he : s.set e = .submit a ∨ s.set e = .advance a) : e = d := by
  by_contra hne
  rcases h.others e hne with hout | hout <;> rcases he with he | he <;> cases he.symm.trans hout

/-- A `set` without a list begins, or finds the event set. -/
theorem Delivers.idle_turn {rest : List ι} {e : δ} {pc : SetPc ι} (h : Delivers s₀ as s d rest)
    (hword : s.word = .set) (hrun : (machine ι δ false).run s₀ as = some s)
    (hs : Event.step s l = some s') (hsubmitted : Event.submitted s l = [])
    (he : s.set e = .out ∨ s.set e = .exchange) (hpc : pc = .out ∨ pc = .exchange)
    (hset : s'.set = Function.update s.set e pc) (hnext : s'.next = s.next)
    (hwait : s'.wait = s.wait) : Delivers s₀ (as ++ [l]) s' d rest := by
  refine h.keep hword hrun hs hsubmitted ?_ (fun i => by rw [hwait]) ?_
  · by_cases hed : e = d
    · subst hed
      cases h.working with
      | submit hd => rcases he with he | he <;> cases he.symm.trans hd
      | advance hd => rcases he with he | he <;> cases he.symm.trans hd
      | idle =>
        refine .idle ?_
        rw [hset, Function.update_self]
        exact hpc
    · refine h.working.congr ?_ (fun i _ => by rw [hnext]) fun a _ ha => ⟨by rw [hnext], ?_⟩
      · rw [hset, Function.update_of_ne (Ne.symm hed)]
      · rw [hwait, ha]
  · intro e' he'
    by_cases hee : e' = e
    · subst hee
      rw [hset, Function.update_self]
      exact hpc
    · rw [hset, Function.update_of_ne hee]
      exact h.others e' he'

/-- The loop submits the next coroutine of the list, and goes on to the next
one. -/
theorem Delivers.step {rest : List ι} (h : Delivers s₀ as s d rest) (hword : s.word = .set)
    (hrun : (machine ι δ false).run s₀ as = some s) (hkeeps : KeepsLinks s l)
    (hs : Event.step s l = some s') : ∃ rest', Delivers s₀ (as ++ [l]) s' d rest' := by
  cases step_cases hs with
  | move i pc v hold hnew _ hfree hstate _ _ hsubmitted =>
    have hout : i ∉ rest := fun hmem => hold ((h.suspended_iff i).mpr hmem)
    refine ⟨rest, h.keep hword hrun hs hsubmitted (h.working.congr ?_ ?_ ?_) ?_ ?_⟩
    · rw [hstate]
    · intro j hj
      have hji : j ≠ i := by
        rintro rfl
        exact hout hj
      rw [hstate]
      exact Function.update_of_ne hji ..
    · intro a hd ha
      have hai : a ≠ i := by
        rintro rfl
        exact hfree hkeeps ha d hd
      rw [hstate]
      exact ⟨Function.update_of_ne hai .., (Function.update_of_ne hai ..).trans ha⟩
    · intro j
      rw [hstate]
      by_cases hji : j = i
      · subst hji
        simp [hold, hnew]
      · simp [hji]
    · rw [hstate]
      exact h.others
  | link i old hlist =>
    rw [hword] at hlist
    cases hlist
  | turn e pc hpc hstate _ _ hsubmitted =>
    rcases hpc with ⟨he, rfl⟩ | ⟨a, he, rfl⟩
    · exact ⟨rest, h.idle_turn hword hrun hs hsubmitted (.inl he) (.inr rfl) (by rw [hstate])
        (by rw [hstate]) (by rw [hstate])⟩
    · obtain rfl := h.eq_of_loop (.inr he)
      have hchain : Chain s.next (s.next a) rest := by
        cases h.working with
        | submit hd => cases he.symm.trans hd
        | advance hd _ hchain =>
          cases he.symm.trans hd
          exact hchain
        | idle hd => rcases hd with hd | hd <;> cases he.symm.trans hd
      refine ⟨rest, h.keep hword hrun hs hsubmitted (.of_loop (p := s.next a) ?_ ?_) ?_ ?_⟩
      · rw [hstate]
        exact Function.update_self ..
      · rw [hstate]
        exact hchain
      · rw [hstate]
        exact fun _ => Iff.rfl
      · intro e' he'
        rw [hstate]
        simp only [Function.update_of_ne he']
        exact h.others e' he'
  | exchange e hlabel he hstate _ =>
    subst hlabel
    rw [hword] at hstate
    exact ⟨rest, h.idle_turn hword hrun hs rfl (.inr he) (.inl rfl) (by rw [hstate]; rfl)
      (by rw [hstate]) (by rw [hstate])⟩
  | submit e a he ha hstate hlinked hcaptured hsubmitted =>
    obtain rfl := h.eq_of_loop (.inl he)
    obtain ⟨rest, rfl, hchain⟩ : ∃ tail, rest = a :: tail ∧ Chain s.next (s.next a) tail := by
      cases h.working with
      | submit hd hchain =>
        cases he.symm.trans hd
        exact ⟨_, rfl, hchain⟩
      | advance hd => cases he.symm.trans hd
      | idle hd => rcases hd with hd | hd <;> cases he.symm.trans hd
    have hwhole : Chain s.next (some a) (a :: rest) := ⟨rfl, hchain⟩
    have hnodup := List.nodup_cons.mp hwhole.nodup
    refine ⟨rest, ?_, ?_, ?_, ?_, ?_⟩
    · rw [capturedIn_concat hrun hs, hcaptured, List.append_nil]
      exact h.taken
    · rw [submittedIn_concat hrun hs, hsubmitted, linkedIn_concat hrun hs, hlinked]
      simpa using h.submitted
    · rw [hstate]
      exact .advance (Function.update_self ..) (Function.update_self ..) hchain
    · intro j
      rw [hstate]
      by_cases hja : j = a
      · subst hja
        simp [hnodup.1]
      · simp [hja, h.suspended_iff]
    · intro e' he'
      rw [hstate]
      simp only [Function.update_of_ne he']
      exact h.others e' he'

/-- An exchange has been before, when the event is set. -/
theorem TakenOnce.exchanged (h : TakenOnce s₀ as) : ∃ d, .exchange d ∈ as := by
  obtain ⟨pre, d, post, _, _, _, rfl, _⟩ := h
  exact ⟨d, by simp⟩

/-- A registration that ends without a link is a load that finds the event
set. -/
theorem register_fails (hs : Event.step s l = some s')
    (hi : s.wait i = .load ∨ ∃ old, s.wait i = .cas old) (hout : s'.wait i = .out) :
    s.word = .set ∧ l = .load i := by
  have hne : s.wait i ≠ .out ∧ s.wait i ≠ .ready ∧ s.wait i ≠ .suspended := by
    rcases hi with hi | ⟨old, hi⟩ <;> simp [hi]
  have hother : ∀ {j pc}, j ≠ i → Function.update s.wait j pc i ≠ .out := by
    intro j pc hji
    rw [Function.update_of_ne hji.symm]
    exact hne.1
  cases l with
  | wait j =>
    obtain ⟨hj, hs⟩ := Option.ite_none_right_eq_some.mp hs
    cases hs
    exact absurd hout (hother fun hji => hne.1 (hji ▸ hj))
  | isSet j =>
    obtain ⟨hj, hs⟩ := Option.ite_none_right_eq_some.mp hs
    cases hs
    exact absurd hout (hother fun hji => hne.2.1 (hji ▸ hj))
  | load j =>
    obtain ⟨hj, hs⟩ := Option.ite_none_right_eq_some.mp hs
    cases hword : s.word with
    | set =>
      rw [hword] at hs
      cases hs
      by_cases hji : j = i
      · exact ⟨rfl, by rw [hji]⟩
      · exact absurd hout (hother hji)
    | list head =>
      rw [hword] at hs
      cases hs
      by_cases hji : j = i
      · subst hji
        simp at hout
      · exact absurd hout (hother hji)
  | cas j spurious =>
    simp only [Event.step] at hs
    split at hs
    · split at hs
      · cases hs
        by_cases hji : j = i
        · subst hji
          simp at hout
        · exact absurd hout (hother hji)
      · cases hs
        by_cases hji : j = i
        · subst hji
          simp at hout
        · exact absurd hout (hother hji)
    · cases hs
  | submit d =>
    simp only [Event.step] at hs
    split at hs
    · obtain ⟨ha, hs⟩ := Option.ite_none_right_eq_some.mp hs
      cases hs
      exact absurd hout (hother fun hji => hne.2.2 (hji ▸ ha))
    · cases hs
  | advance d =>
    simp only [Event.step] at hs
    split at hs
    · cases hs
      exact absurd hout hne.1
    · cases hs
  | set d =>
    obtain ⟨_, hs⟩ := Option.ite_none_right_eq_some.mp hs
    cases hs
    exact absurd hout hne.1
  | exchange d =>
    obtain ⟨_, hs⟩ := Option.ite_none_right_eq_some.mp hs
    cases hs
    exact absurd hout hne.1
  | reuse j v =>
    obtain ⟨_, hs⟩ := Option.ite_none_right_eq_some.mp hs
    cases hs
    exact absurd hout hne.1

/-- An event that is set stays set in every run, and the run links nobody. -/
theorem set_forever (hword : s.word = .set) {t : State ι δ}
    (hrun : (machine ι δ false).run s as = some t) : t.word = .set ∧ linkedIn s as = [] := by
  refine Machine.path_invariant (M := machine ι δ false)
    (I := fun as t => t.word = .set ∧ linkedIn s as = []) ⟨hword, rfl⟩ ?_ hrun
  rintro as t l t' hrun ⟨hset, hnone⟩ hs
  obtain ⟨hset', hlinked, _⟩ := step_set hset hs
  refine ⟨hset', ?_⟩
  rw [linkedIn_concat hrun hs, hlinked, hnone]
  rfl

/-- What the run has submitted, when the storage of the awaiters is left alone
long enough. -/
theorem delivers (h0 : Init false s₀) (hrun : (machine ι δ false).run s₀ as = some s)
    (hkeeps : (machine ι δ false).Along (fun s l _ => KeepsLinks s l) s₀ as)
    (hword : s.word = .set) : ∃ d rest, Delivers s₀ as s d rest := by
  refine hkeeps.path_invariant
    (I := fun as s => s.word = .set → ∃ d rest, Delivers s₀ as s d rest) ?_ ?_ hrun hword
  · intro hset
    have hlist : s₀.word = .list none := h0.word_eq
    cases hlist.symm.trans hset
  · intro as s l s' hrun hI hkeep hs hword'
    cases hword : s.word with
    | set =>
      obtain ⟨d, rest, h⟩ := hI hword
      obtain ⟨rest', h'⟩ := h.step hword hrun hkeep hs
      exact ⟨d, rest', h'⟩
    | list head => exact ((handOff h0 hrun).unset head hword).delivers hword hrun hs hword'

/-- When no `set` is in its loop any more, all of them were submitted. -/
theorem Delivers.all {rest : List ι} (h : Delivers s₀ as s d rest) (hcalls : Calls s) :
    submittedIn s₀ as = (linkedIn s₀ as).map fun i => (d, i) := by
  rw [← h.submitted]
  cases h.working with
  | submit hd => exact absurd hd (not_loop hcalls).1
  | advance hd => exact absurd hd (not_loop hcalls).2
  | idle => rw [List.map_nil, List.append_nil]

end Lemmas

/-- The hand-off, in every run from an event that is not set.  Nobody goes on
before an exchange.  Until then the suspended coroutines are those that were
linked, each once, and they are the list under the head; the first exchange
takes this list, and no other exchange takes anything.  The `set` that took it
submits these coroutines, each once and nobody else, and all of them by the
time it is out of its loop.  A registration that fails has found the event set
and goes on.  The event stays set, and nobody is linked any more. -/
theorem event_hand_off {s₀ s : State ι δ} {as : List (Label ι δ)}
    (h0 : (machine ι δ false).init s₀) (hrun : (machine ι δ false).run s₀ as = some s) :
    (∀ l s' i, step s l = some s' → Proceeds s l i → ∃ d, .exchange d ∈ as) ∧
      (linkedIn s₀ as).Nodup ∧
      (∀ head, s.word = .list head → (∀ d, .exchange d ∉ as) ∧ submittedIn s₀ as = [] ∧
        Chain s.next head (linkedIn s₀ as) ∧
        ∀ i, s.wait i = .suspended ↔ i ∈ linkedIn s₀ as) ∧
      (s.word = .set → TakenOnce s₀ as) ∧
      (s.word = .set → (machine ι δ false).Along (fun s l _ => KeepsLinks s l) s₀ as →
        ∃ d rest, Delivers s₀ as s d rest ∧
          (Calls s → submittedIn s₀ as = (linkedIn s₀ as).map fun i => (d, i))) ∧
      (∀ l s' i, step s l = some s' → (s.wait i = .load ∨ ∃ old, s.wait i = .cas old) →
        s'.wait i = .out → s.word = .set ∧ Proceeds s l i) ∧
      ∀ bs t, s.word = .set → (machine ι δ false).run s bs = some t →
        t.word = .set ∧ linkedIn s bs = [] := by
  have h := handOff h0 hrun
  refine ⟨?_, ?_, ?_, h.taken, ?_, ?_, ?_⟩
  · intro l s' i _ hp
    exact (h.taken (proceeds_set (fun head hword => (h.unset head hword).calls) hp)).exchanged
  · cases hword : s.word with
    | set =>
      obtain ⟨_, _, _, _, _, _, _, _, _, _, _, hchain, _⟩ := h.taken hword
      exact hchain.nodup
    | list head => exact (h.unset head hword).chain.nodup
  · intro head hword
    have hunset := h.unset head hword
    exact ⟨hunset.no_exchange, hunset.no_submit, hunset.chain, hunset.suspended_iff⟩
  · intro hword hkeeps
    obtain ⟨d, rest, hdelivers⟩ := delivers h0 hrun hkeeps hword
    exact ⟨d, rest, hdelivers, hdelivers.all⟩
  · intro l s' i hs hi hout
    obtain ⟨hword, rfl⟩ := register_fails hs hi hout
    exact ⟨hword, rfl, hword⟩
  · intro bs t hword hbs
    exact set_forever hword hbs

/-- An event that is not set, with one coroutine and one caller. -/
def start : State Unit Unit where
  word := .list none
  next := fun _ => none
  wait := fun _ => .out
  set := fun _ => .out

/-- The coroutine is linked, and the caller takes it and submits it. -/
def oneWaiter : List (Label Unit Unit) :=
  [.wait (), .isSet (), .load (), .cas () false, .set (), .exchange (), .submit (), .advance ()]

instance [Fintype δ] (s : State ι δ) : DecidablePred (KeepsLinks s)
  | .wait _ | .reuse _ _ => inferInstanceAs (Decidable (∀ d, s.set d ≠ _))
  | .isSet _ | .load _ | .cas .. | .set _ | .exchange _ | .submit _ | .advance _ =>
    inferInstanceAs (Decidable True)

theorem event_hand_off_one :
    TakenOnce start oneWaiter ∧ submittedIn start oneWaiter = [((), ())] := by
  have hrun : ((machine Unit Unit false).runUnder KeepsLinks start oneWaiter).map
      (fun s => decide (s.word = .set ∧ s.set () = .out)) = some true := by decide
  obtain ⟨s, hs, htest⟩ := Option.map_eq_some_iff.mp hrun
  obtain ⟨hword, hout⟩ := of_decide_eq_true htest
  obtain ⟨hkeeps, hs⟩ := Machine.Along.of_runUnder hs
  have h0 : (machine Unit Unit false).init start := ⟨rfl, fun _ => rfl, fun _ => rfl⟩
  obtain ⟨-, -, -, htaken, hdelivers, -⟩ := event_hand_off h0 hs
  obtain ⟨⟨⟩, rest, -, hall⟩ := hdelivers hword hkeeps
  refine ⟨htaken hword, (hall fun _ => .inl hout).trans ?_⟩
  decide

end SheepCoro.Event
