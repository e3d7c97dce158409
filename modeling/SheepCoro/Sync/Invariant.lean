import SheepCoro.Sync.Lists

/-!
# The invariant of the mutex and its condition variables

`Inv` ties the word, the resume list and the coroutines together.  There is
at most one holder, `o`; the word is `nolocked` exactly when there is none;
and then the lists of the mutex are empty.  The lock is passed on without
`nolocked` ever being stored, so the holder is replaced in the step of the
hand-off.

A waiter of a condition variable may be handed the lock by its own `unlock`:
it is notified and pushed while it still unlocks.  The hand-off therefore
clears `hold` of the old holder before it sets the one of the new holder.

Every lemma is about one operation and says what it does to the lists.
-/

namespace SheepCoro.Sync

open Lib

variable {ι κ ν : Type} [DecidableEq ι] [DecidableEq κ] [DecidableEq ν]

/-- The coroutine holds the lock and is not in `unlock`. -/
def Hold.Present : Hold ι → Prop
  | .granted | .inside | .evalWait | .evalResume | .registerCv => True
  | _ => False

/-- The position of the holder. -/
def phase (s : State ι κ ν) (o : Option ι) : Hold ι :=
  o.elim .none s.hold

structure Inv (s : State ι κ ν) (o : Option ι) (stack resume : List ι) (cvs : κ → List ι)
    (caps : ν → List ι) : Prop where
  places : Places s.loc stack resume cvs caps
  links : Links s stack cvs caps
  hold_iff : ∀ i, s.hold i ≠ .none ↔ o = some i
  free_iff : s.state = .nolocked ↔ o = none
  side : ResumeSide s.next s.resumeList (phase s o) resume
  /-- The holder has seen the stack, and others only push. -/
  exchange : ∀ i, s.hold i = .exchange → stack ≠ []
  present : ∀ i, (s.hold i).Present → s.loc i = .none

section Lemmas

variable {s s' : State ι κ ν} {o : Option ι} {stack resume : List ι} {cvs : κ → List ι}
  {caps : ν → List ι} {i : ι}

section

omit [DecidableEq ι] [DecidableEq κ] [DecidableEq ν]

theorem Inv.holder (h : Inv s o stack resume cvs caps) (hi : s.hold i ≠ .none) : o = some i :=
  (h.hold_iff i).mp hi

theorem Inv.locked (h : Inv s (some i) stack resume cvs caps) : s.state ≠ .nolocked := by
  intro heq
  cases h.free_iff.mp heq

/-- Who is on a list of the mutex or of a condition variable does not hold
the lock, except inside of `unlock`. -/
theorem Inv.not_present (h : Inv s o stack resume cvs caps) (hi : s.loc i ≠ .none) :
    ¬ (s.hold i).Present := fun hp => hi (h.present i hp)

/-- Nobody waits for a free lock. -/
theorem Inv.free (h : Inv s none stack resume cvs caps) :
    stack = [] ∧ resume = [] ∧ s.resumeList = none := by
  have hchain := h.links.stack_chain
  rw [h.free_iff.mpr rfl] at hchain
  exact ⟨Chain.none_iff.mp hchain, h.side⟩

end

/-! ## The holder moves on -/

section

omit [DecidableEq κ] [DecidableEq ν]

/-- The holder takes a step that keeps the lock.  The lists of the mutex may
change, the places do not. -/
theorem Inv.advance {x : Hold ι} {stack' resume' : List ι}
    (h : Inv s (some i) stack resume cvs caps) (hloc : s'.loc = s.loc)
    (hhold : s'.hold = Function.update s.hold i x) (hx : x ≠ .none)
    (hlocked : s'.state ≠ .nolocked) (hplaces : Places s.loc stack' resume' cvs caps)
    (hlinks : Links s' stack' cvs caps)
    (hside : ResumeSide s'.next s'.resumeList x resume') (hexch : x = .exchange → stack' ≠ [])
    (hpres : x.Present → s.loc i = .none) : Inv s' (some i) stack' resume' cvs caps := by
  have hothers : ∀ j, j ≠ i → s'.hold j = .none := by
    intro j hj
    rw [hhold, Function.update_of_ne hj]
    by_contra hne
    exact hj (Option.some.inj (h.holder hne)).symm
  have hself : s'.hold i = x := by rw [hhold, Function.update_self]
  refine ⟨hloc ▸ hplaces, hlinks, ?_, ?_, ?_, ?_, ?_⟩
  · intro j
    by_cases hj : j = i
    · subst hj
      simp [hself, hx]
    · simp only [hothers j hj, ne_eq, not_true_eq_false, Option.some.injEq, false_iff]
      exact fun heq => hj heq.symm
  · simp [hlocked]
  · simpa [phase, hself] using hside
  · intro j hj
    by_cases hji : j = i
    · rw [hji, hself] at hj
      exact hexch hj
    · rw [hothers j hji] at hj
      cases hj
  · intro j hj
    by_cases hji : j = i
    · rw [hji, hself] at hj
      rw [hloc, hji]
      exact hpres hj
    · rw [hothers j hji] at hj
      exact hj.elim

/-- The holder moves on without touching anything else. -/
theorem Inv.setHold {x : Hold ι} (h : Inv s (some i) stack resume cvs caps) (hx : x ≠ .none)
    (hside : ResumeSide s.next s.resumeList x resume) (hexch : x = .exchange → stack ≠ [])
    (hpres : x.Present → s.loc i = .none) :
    Inv (s.setHold i x) (some i) stack resume cvs caps := by
  exact h.advance rfl rfl hx h.locked h.places h.links.setHold hside hexch hpres

/-- A coroutine takes the free lock. -/
theorem Inv.acquire {x : Hold ι} (h : Inv s none stack resume cvs caps)
    (hi : ¬ (s.loc i).Waiting) (hx : x.Present) :
    Inv (({ s with state := .locked none }.setLoc i .none).setHold i x) (some i) stack resume
      cvs caps := by
  have hnobody : ∀ j, s.hold j = .none := by
    intro j
    by_contra hj
    cases h.holder hj
  obtain ⟨rfl, hresume, hlist⟩ := h.free
  refine ⟨h.places.move hi (fun hw => hw), ?_, ?_, ?_, ?_, ?_, ?_⟩
  · have hlinks : Links { s with state := .locked none } [] cvs caps :=
      ⟨rfl, h.links.cv_chain, h.links.cv_tail, h.links.cap_chain, h.links.cas_link⟩
    exact (hlinks.setLoc (by simp)).setHold
  · intro j
    by_cases hj : j = i
    · subst hj
      simp only [State.setHold, Function.update_self, iff_true]
      intro hnone
      rw [hnone] at hx
      exact hx
    · simp only [State.setHold, State.setLoc, Function.update_of_ne hj, hnobody j]
      simp only [ne_eq, not_true_eq_false, Option.some.injEq, false_iff]
      exact fun heq => hj heq.symm
  · simp [State.setHold, State.setLoc]
  · simp only [phase, Option.elim, State.setHold, Function.update_self, State.setLoc]
    rw [hresume, hlist]
    cases x <;> first | exact rfl | exact hx.elim
  · intro j hj
    by_cases hji : j = i
    · subst hji
      simp only [State.setHold, Function.update_self] at hj
      rw [hj] at hx
      exact hx.elim
    · simp only [State.setHold, State.setLoc, Function.update_of_ne hji, hnobody j] at hj
      cases hj
  · intro j hj
    by_cases hji : j = i
    · subst hji
      simp [State.setHold, State.setLoc]
    · simp only [State.setHold, State.setLoc, Function.update_of_ne hji, hnobody j] at hj
      exact hj.elim

/-! ## Awaiters outside of the lists -/

/-- An awaiter that is on no list changes its place. -/
theorem Inv.setLoc {l : Loc ι κ} (h : Inv s o stack resume cvs caps) (hi : ¬ (s.loc i).Waiting)
    (hl : ¬ l.Waiting) (hcas : ∀ v, l = .cas v → s.next i = v.head)
    (hpres : ¬ (s.hold i).Present) : Inv (s.setLoc i l) o stack resume cvs caps := by
  refine ⟨h.places.move hi hl, h.links.setLoc hcas, h.hold_iff, h.free_iff, h.side, h.exchange, ?_⟩
  intro j hj
  have hne : j ≠ i := by
    intro heq
    rw [heq] at hj
    exact hpres hj
  simp only [State.setLoc, Function.update_of_ne hne]
  exact h.present j hj

/-- An awaiter that is on no list stores its link. -/
theorem Inv.setNext {p : Option ι} (h : Inv s o stack resume cvs caps)
    (hi : ¬ (s.loc i).Waiting) (hcas : ∀ v, s.loc i ≠ .cas v) :
    Inv (s.setNext i p) o stack resume cvs caps := by
  obtain ⟨hstack, hresume, hcvs, hcaps⟩ := h.places.not_mem hi
  exact ⟨h.places, h.links.setNext hstack hcvs hcaps hcas, h.hold_iff, h.free_iff,
    h.side.update hresume, h.exchange, h.present⟩

omit [DecidableEq ι] in
theorem Inv.setKind {kind : ι → Kind κ} (h : Inv s o stack resume cvs caps) :
    Inv { s with kind := kind } o stack resume cvs caps :=
  ⟨h.places, ⟨h.links.stack_chain, h.links.cv_chain, h.links.cv_tail, h.links.cap_chain,
    h.links.cas_link⟩, h.hold_iff, h.free_iff, h.side, h.exchange, h.present⟩

/-! ## `register_lock` -/

theorem Inv.push {v : Option ι} (h : Inv s o stack resume cvs caps)
    (hi : s.loc i = .cas (.locked v))
    (hstate : s.state = .locked v) :
    Inv ({ s with state := .locked (some i) }.setLoc i .queued) o (i :: stack) resume cvs caps := by
  have hout : ¬ (s.loc i).Waiting := by
    rw [hi]
    exact fun hw => hw
  obtain ⟨hstack, -, -, -⟩ := h.places.not_mem hout
  have hchain : Chain s.next (some i) (i :: stack) := by
    refine ⟨rfl, ?_⟩
    rw [h.links.cas_link i _ hi]
    have hold := h.links.stack_chain
    rwa [hstate] at hold
  refine ⟨h.places.push hout, ?_, h.hold_iff, ?_, h.side, ?_, ?_⟩
  · have hlinks : Links { s with state := .locked (some i) } (i :: stack) cvs caps :=
      ⟨hchain, h.links.cv_chain, h.links.cv_tail, h.links.cap_chain, h.links.cas_link⟩
    exact hlinks.setLoc (by simp)
  · have hne : o ≠ none := by
      intro heq
      have := h.free_iff.mpr heq
      rw [hstate] at this
      cases this
    simp [State.setLoc, hne]
  · intro j _
    exact List.cons_ne_nil _ _
  · intro j hj
    have hne : j ≠ i := by
      intro heq
      rw [heq] at hj
      exact h.not_present (by simp [hi]) hj
    simp only [State.setLoc, Function.update_of_ne hne]
    exact h.present j hj

end

omit [DecidableEq ι] [DecidableEq κ] in
theorem Kind.resume_present (k : Kind κ) : (k.resume : Hold ι).Present := by
  cases k with
  | mutexAwaiter => trivial
  | cvAwaiter k hasCond => cases hasCond <;> trivial

/-! ## `unlock` -/

omit [DecidableEq κ] [DecidableEq ν] in
/-- Nobody waits and the lock becomes free. -/
theorem Inv.release (h : Inv s (some i) stack resume cvs caps) (hi : s.hold i = .casUnlock)
    (hstate : s.state = .locked none) :
    Inv ({ s with state := .nolocked }.setHold i .none) none stack resume cvs caps := by
  have hside := h.side
  simp only [phase, Option.elim, hi] at hside
  have hchain := h.links.stack_chain
  rw [hstate] at hchain
  have hnobody : ∀ j, Function.update s.hold i .none j = .none := by
    intro j
    by_cases hj : j = i
    · rw [hj, Function.update_self]
    · rw [Function.update_of_ne hj]
      by_contra hne
      exact hj (Option.some.inj (h.holder hne)).symm
  refine ⟨h.places, ⟨hchain, h.links.cv_chain, h.links.cv_tail, h.links.cap_chain,
    h.links.cas_link⟩, ?_, ?_, hside, ?_, ?_⟩
  · intro j
    simp [State.setHold, hnobody j]
  · simp [State.setHold]
  · intro j hj
    simp only [State.setHold, hnobody j] at hj
    cases hj
  · intro j hj
    simp only [State.setHold, hnobody j] at hj
    exact hj.elim

omit [DecidableEq κ] [DecidableEq ν] in
/-- The holder takes the stack. -/
theorem Inv.exchangeStack {a : ι} (h : Inv s (some i) stack resume cvs caps)
    (hi : s.hold i = .exchange) (hstate : s.state = .locked (some a)) :
    Inv ({ s with state := .locked none }.setHold i (.reverse a none)) (some i) [] stack cvs
      caps := by
  have hside := h.side
  simp only [phase, Option.elim, hi] at hside
  obtain ⟨hresume, hlist⟩ := hside
  have hchain := h.links.stack_chain
  rw [hstate] at hchain
  refine h.advance rfl rfl (by simp) (by simp [State.setHold]) (h.places.regroup ?_ ?_) ?_ ?_
    (by simp) (fun hp => hp.elim)
  · simp [hresume]
  · simp
  · exact ⟨rfl, h.links.cv_chain, h.links.cv_tail, h.links.cap_chain, h.links.cas_link⟩
  · refine ⟨hlist, hchain.nodup, stack, [], ?_, hchain, rfl⟩
    rw [List.append_nil]

/-- One turn of the loop that reverses the stack. -/
theorem ResumeSide.reverse {next : ι → Option ι} {a : ι} {t : Option ι} {xs line : List ι}
    {r : Option ι} (h : ResumeSide next r (.reverse a t) xs)
    (horder : InOrder next (.reverse a t) xs line) {x : Hold ι}
    (hx : x = match next a with
      | some b => .reverse b (some a)
      | none => .popResumeList a) :
    a ∈ xs ∧ ∃ ys, (∀ j, j ∈ ys ↔ j ∈ xs) ∧ ResumeSide (Function.update next a t) r x ys ∧
      InOrder (Function.update next a t) x ys line := by
  obtain ⟨hr, hnodup, -⟩ := h
  obtain ⟨ys, zs, rfl, hys, hzs, rfl⟩ := horder
  obtain ⟨ys', rfl, hys'⟩ := Chain.some_iff.mp hys
  rw [List.cons_append] at hnodup
  obtain ⟨ha, hnd⟩ := List.nodup_cons.mp hnodup
  have hays : a ∉ ys' := fun hm => ha (List.mem_append_left _ hm)
  have hazs : a ∉ zs := fun hm => ha (List.mem_append_right _ hm)
  have hdone : Chain (Function.update next a t) (some a) (a :: zs) := hzs.push hazs
  have hrest : Chain (Function.update next a t) (next a) ys' := hys'.update hays
  have hline : (a :: ys').reverse ++ zs = ys'.reverse ++ a :: zs := by simp
  refine ⟨List.mem_cons_self .., ys' ++ a :: zs, fun j => ?_, ?_⟩
  · simp only [List.mem_append, List.mem_cons]
    tauto
  · subst hx
    cases hb : next a with
    | some b =>
      rw [hb] at hrest
      refine ⟨⟨hr, ?_, ys', a :: zs, rfl, hrest, hdone⟩, ys', a :: zs, rfl, hrest, hdone, hline⟩
      exact (List.perm_middle.nodup_iff).mpr hnodup
    | none =>
      rw [hb] at hrest
      rw [hline, Chain.none_iff.mp hrest]
      exact ⟨hdone, rfl⟩

section

omit [DecidableEq κ] [DecidableEq ν]

theorem Inv.reverse {a : ι} {t : Option ι} {line : List ι}
    (h : Inv s (some i) stack resume cvs caps) (hi : s.hold i = .reverse a t)
    (horder : InOrder s.next (.reverse a t) resume line) {x : Hold ι}
    (hx : x = match s.next a with
      | some b => .reverse b (some a)
      | none => .popResumeList a) :
    ∃ ys, Inv ((s.setNext a t).setHold i x) (some i) stack ys cvs caps ∧
      InOrder (Function.update s.next a t) x ys line := by
  have hside := h.side
  simp only [phase, Option.elim, hi] at hside
  obtain ⟨ha, ys, hmem, hys, hline⟩ := hside.reverse horder hx
  have hq : s.loc a = .queued := (h.places.queued_iff a).mpr (.inr ha)
  obtain ⟨hcvs, hcaps⟩ := h.places.queued_not_mem hq
  have hstack : a ∉ stack := fun hm => h.places.stack_disjoint a hm ha
  have hxh : x ≠ .none ∧ x ≠ .exchange ∧ ¬ x.Present := by
    rw [hx]
    split <;> simp [Hold.Present]
  have hlinks : Links (s.setNext a t) stack cvs caps :=
    h.links.setNext hstack hcvs hcaps (by simp [hq])
  refine ⟨ys, h.advance rfl rfl hxh.1 h.locked (h.places.regroup ?_ ?_)
    hlinks.setHold hys (fun he => absurd he hxh.2.1) (fun hp => absurd hp hxh.2.2), hline⟩
  · intro j
    rw [hmem]
  · intro j hj
    rw [hmem]
    exact h.places.stack_disjoint j hj

/-- The head of the list is taken off it. -/
theorem Inv.popResumeList {t : ι} (h : Inv s (some i) stack resume cvs caps)
    (hi : s.hold i = .popResumeList t) :
    Inv ({ s with resumeList := s.next t }.setHold i (.handOff t)) (some i) stack resume cvs
      caps := by
  have hside := h.side
  simp only [phase, Option.elim, hi] at hside
  refine h.advance rfl rfl (by simp) h.locked h.places
    ⟨h.links.stack_chain, h.links.cv_chain, h.links.cv_tail, h.links.cap_chain,
      h.links.cas_link⟩ ?_ (by simp) (fun hp => hp.elim)
  have hchain : Chain s.next (some t) resume := hside
  obtain ⟨ys, rfl, hys⟩ := Chain.some_iff.mp hchain
  exact ⟨ys, rfl, (List.nodup_cons.mp hchain.nodup).1, hys⟩

/-- The lock goes to the first awaiter of the resume list. -/
theorem Inv.pass {t : ι} (h : Inv s (some i) stack resume cvs caps) (hi : s.hold i = .handOff t) :
    ∃ ys, resume = t :: ys ∧
      Inv ((s.setHold i .none).grant t) (some t) stack ys cvs caps := by
  have hside := h.side
  simp only [phase, Option.elim, hi] at hside
  obtain ⟨ys, rfl, hnot, hys⟩ := hside
  have hlocked := h.locked
  have hpres := Kind.resume_present (ι := ι) (s.kind t)
  have hothers : ∀ j, j ≠ t → Function.update (Function.update s.hold i .none) t
      (s.kind t).resume j = .none := by
    intro j hj
    rw [Function.update_of_ne hj]
    by_cases hji : j = i
    · rw [hji, Function.update_self]
    · rw [Function.update_of_ne hji]
      by_contra hne
      exact hji (Option.some.inj (h.holder hne)).symm
  refine ⟨ys, rfl, h.places.handOff hnot, ?_, ?_, ?_, ?_, ?_, ?_⟩
  · exact (h.links.setHold.setLoc (by simp)).setHold
  · intro j
    show Function.update (Function.update s.hold i .none) t (s.kind t).resume j ≠ .none ↔ _
    by_cases hj : j = t
    · subst hj
      simp only [Function.update_self, iff_true]
      intro hnone
      rw [hnone] at hpres
      exact hpres
    · simp only [hothers j hj, ne_eq, not_true_eq_false, Option.some.injEq, false_iff]
      exact fun heq => hj heq.symm
  · simpa [State.grant, State.setHold, State.setLoc] using hlocked
  · show ResumeSide s.next s.resumeList
      (Function.update (Function.update s.hold i .none) t (s.kind t).resume t) ys
    rw [Function.update_self]
    cases hk : (s.kind t).resume (ι := ι) <;>
      first | exact hys | (rw [hk] at hpres; exact hpres.elim)
  · intro j hj
    by_cases hjt : j = t
    · subst hjt
      simp only [State.grant, State.setHold, State.setLoc, Function.update_self] at hj
      rw [hj] at hpres
      exact hpres.elim
    · simp only [State.grant, State.setHold, State.setLoc, hothers j hjt] at hj
      cases hj
  · intro j hj
    by_cases hjt : j = t
    · subst hjt
      simp [State.grant, State.setHold, State.setLoc]
    · simp only [State.grant, State.setHold, State.setLoc, hothers j hjt] at hj
      exact hj.elim

end

/-! ## Condition variables -/

section

omit [DecidableEq ν]

/-- The first waiter of a condition variable is linked. -/
theorem Links.parkFirst {k : κ} (h : Links s stack cvs caps) (hnull : s.next i = none)
    (hempty : cvs k = []) :
    Links { s.setLoc i (.parked k) with
      cvHead := Function.update s.cvHead k (some i)
      cvTail := Function.update s.cvTail k (some i) } stack
      (Function.update cvs k (cvs k ++ [i])) caps := by
  refine ⟨h.stack_chain, fun k' => ?_, fun k' => ?_, h.cap_chain, ?_⟩
  · by_cases hk : k' = k
    · subst hk
      simp only [Function.update_self, hempty, List.nil_append]
      exact ⟨rfl, hnull⟩
    · simp only [Function.update_of_ne hk]
      exact h.cv_chain k'
  · by_cases hk : k' = k
    · subst hk
      simp
    · simp only [Function.update_of_ne hk]
      exact h.cv_tail k'
  · exact (h.setLoc (by simp)).cas_link

/-- A waiter of a condition variable is linked behind the last one. -/
theorem Links.parkLast {k : κ} {t : ι} {xs : List ι} (h : Links s stack cvs caps)
    (hnull : s.next i = none) (hxs : cvs k = xs ++ [t]) (hi : i ∉ cvs k)
    (ht : s.loc t = .parked k) (hstack : t ∉ stack) (hcaps : ∀ m, t ∉ caps m)
    (hcvs : ∀ k', k' ≠ k → t ∉ cvs k') :
    Links { (s.setNext t (some i)).setLoc i (.parked k) with
      cvTail := Function.update s.cvTail k (some i) } stack
      (Function.update cvs k (cvs k ++ [i])) caps := by
  refine ⟨h.stack_chain.update hstack, fun k' => ?_, fun k' => ?_,
    fun m => (h.cap_chain m).update (hcaps m), fun j v hj => ?_⟩
  · by_cases hk : k' = k
    · subst hk
      have hchain := h.cv_chain k'
      rw [hxs] at hchain hi
      simp only [Function.update_self, hxs, List.append_assoc, List.singleton_append]
      exact hchain.snoc hi hnull
    · rw [Function.update_of_ne hk]
      exact (h.cv_chain k').update (hcvs k' hk)
  · by_cases hk : k' = k
    · subst hk
      simp
    · simp only [Function.update_of_ne hk]
      exact h.cv_tail k'
  · have hjt : j ≠ t := by
      rintro rfl
      simp only [State.setLoc, State.setNext, Function.update_apply, ht] at hj
      split_ifs at hj
    have hji : s.loc j = .cas v := by
      simp only [State.setLoc, State.setNext, Function.update_apply] at hj
      split_ifs at hj
      exact hj
    simp only [State.setLoc, State.setNext, Function.update_of_ne hjt]
    exact h.cas_link j v hji

theorem Inv.registerCv {k : κ} (h : Inv s (some i) stack resume cvs caps)
    (hi : s.hold i = .registerCv) :
    Inv (registerCv s i k) (some i) stack resume (Function.update cvs k (cvs k ++ [i])) caps := by
  have hloc : s.loc i = .none := h.present i (by rw [hi]; trivial)
  have hout : ¬ (s.loc i).Waiting := by
    rw [hloc]
    exact fun hw => hw
  obtain ⟨-, hresume, hcvs, -⟩ := h.places.not_mem hout
  have hside := h.side
  simp only [phase, Option.elim, hi] at hside
  -- The awaiter stores a null link and goes on to `unlock`.
  have hnext := h.setNext (p := none) hout (by simp [hloc])
  have hbase : Inv ((s.setNext i none).setHold i .readResumeList) (some i) stack resume cvs
      caps := by
    refine hnext.setHold (by simp) ?_ (by simp) (fun hp => hp.elim)
    exact ResumeSide.update (x := .readResumeList) hside hresume
  have hnull : ((s.setNext i none).setHold i .readResumeList).next i = none := by
    simp [State.setHold, State.setNext]
  have hlast := hbase.links.cv_tail k
  have hpark : Places (Function.update s.loc i (.parked k)) stack resume
      (Function.update cvs k (cvs k ++ [i])) caps := h.places.park hout
  have hpresent : ∀ j, (Function.update s.hold i .readResumeList j).Present →
      Function.update s.loc i (.parked k) j = .none := by
    intro j hj
    by_cases hji : j = i
    · subst hji
      rw [Function.update_self] at hj
      exact hj.elim
    · rw [Function.update_of_ne hji] at hj ⊢
      exact h.present j hj
  simp only [Sync.registerCv]
  cases ht : ((s.setNext i none).setHold i .readResumeList).cvTail k with
  | none =>
    rw [ht] at hlast
    have hempty : cvs k = [] := List.getLast?_eq_none_iff.mp hlast.symm
    exact ⟨hpark, hbase.links.parkFirst hnull hempty, hbase.hold_iff, hbase.free_iff, hbase.side,
      hbase.exchange, hpresent⟩
  | some t =>
    rw [ht] at hlast
    obtain ⟨xs, hxs⟩ := List.getLast?_eq_some_iff.mp hlast.symm
    have htk : s.loc t = .parked k := (h.places.parked_iff t k).mpr (by simp [hxs])
    obtain ⟨htstack, htresume, htcaps, htcvs⟩ := h.places.parked_not_mem htk
    exact ⟨hpark, hbase.links.parkLast hnull hxs (hcvs k) htk htstack htcaps htcvs,
      hbase.hold_iff, hbase.free_iff, hbase.side.update htresume, hbase.exchange, hpresent⟩

omit [DecidableEq κ] in
/-- An awaiter that leaves a list for `wake_up` was not present. -/
theorem Inv.present_of_load (h : Inv s o stack resume cvs caps) (hi : s.loc i ≠ .none) :
    ∀ j, (s.hold j).Present → Function.update s.loc i .load j = .none := by
  intro j hj
  have hne : j ≠ i := by
    intro heq
    rw [heq] at hj
    exact h.not_present hi hj
  rw [Function.update_of_ne hne]
  exact h.present j hj

/-- The first waiter leaves the list, if there is one. -/
theorem Inv.notifyOne {k : κ} (h : Inv s o stack resume cvs caps) :
    Inv (notifyOne s k) o stack resume (Function.update cvs k (cvs k).tail) caps := by
  unfold Sync.notifyOne
  cases ha : s.cvHead k with
  | none =>
    have hchain := h.links.cv_chain k
    rw [ha, Chain.none_iff] at hchain
    have hsame : Function.update cvs k (cvs k).tail = cvs := by
      rw [hchain, List.tail_nil, ← hchain, Function.update_eq_self]
    rw [hsame]
    exact h
  | some a =>
    have hchain := h.links.cv_chain k
    rw [ha] at hchain
    obtain ⟨rest, hk, hrest⟩ := Chain.some_iff.mp hchain
    have hnot : a ∉ rest := by
      have hnodup := hchain.nodup
      rw [hk] at hnodup
      exact (List.nodup_cons.mp hnodup).1
    have hp : s.loc a = .parked k := (h.places.parked_iff a k).mpr (by simp [hk])
    rw [show (cvs k).tail = rest by rw [hk, List.tail_cons]]
    refine ⟨h.places.notifyOne hk hnot,
      ⟨h.links.stack_chain, ?_, ?_, h.links.cap_chain, ?_⟩, h.hold_iff, h.free_iff, h.side,
      h.exchange, h.present_of_load (by simp [hp])⟩
    · intro k'
      by_cases hk' : k' = k
      · subst hk'
        simp only [Function.update_self]
        exact hrest
      · simp only [Function.update_of_ne hk']
        exact h.links.cv_chain k'
    · intro k'
      have htail := h.links.cv_tail k'
      by_cases hk' : k' = k
      · subst hk'
        rw [hk] at htail
        simp only [Function.update_self]
        split_ifs with hnone
        · rw [hnone] at hrest
          rw [Function.update_self, Chain.none_iff.mp hrest]
          rfl
        · rw [htail]
          cases rest with
          | nil => exact absurd hrest hnone
          | cons b rest => simp [List.getLast?_cons]
      · simp only [Function.update_of_ne hk']
        split_ifs
        · rw [Function.update_of_ne hk']
          exact htail
        · exact htail
    · exact (h.links.setLoc (by simp)).cas_link

end

theorem Inv.notifyAll {m : ν} {k : κ} (h : Inv s o stack resume cvs caps)
    (hm : s.curHead m = none) :
    Inv (notifyAll s m k) o stack resume (Function.update cvs k [])
      (Function.update caps m (cvs k)) := by
  have hcap := h.links.cap_chain m
  rw [hm] at hcap
  refine ⟨h.places.notifyAll (k := k) (Chain.none_iff.mp hcap),
    ⟨h.links.stack_chain, ?_, ?_, ?_, ?_⟩, h.hold_iff, h.free_iff, h.side, h.exchange, ?_⟩
  · intro k'
    by_cases hk : k' = k
    · subst hk
      simp [Sync.notifyAll]
    · simp only [Sync.notifyAll, Function.update_of_ne hk]
      exact h.links.cv_chain k'
  · intro k'
    by_cases hk : k' = k
    · subst hk
      simp [Sync.notifyAll]
    · simp only [Sync.notifyAll, Function.update_of_ne hk]
      exact h.links.cv_tail k'
  · intro m'
    by_cases hm' : m' = m
    · subst hm'
      simp only [Sync.notifyAll, Function.update_self]
      exact h.links.cv_chain k
    · simp only [Sync.notifyAll, Function.update_of_ne hm']
      exact h.links.cap_chain m'
  · intro j v hj
    simp only [Sync.notifyAll] at hj
    split_ifs at hj
    exact h.links.cas_link j v hj
  · intro j hj
    have hnone := h.present j hj
    simp [Sync.notifyAll, hnone]

omit [DecidableEq κ] in
theorem Inv.notifyNext {m : ν} {a : ι} (h : Inv s o stack resume cvs caps)
    (ha : s.curHead m = some a) :
    Inv { s.setLoc a .load with curHead := Function.update s.curHead m (s.next a) } o stack
      resume cvs (Function.update caps m (caps m).tail) := by
  have hchain := h.links.cap_chain m
  rw [ha] at hchain
  obtain ⟨rest, hm, hrest⟩ := Chain.some_iff.mp hchain
  have hnot : a ∉ rest := by
    have hnodup := hchain.nodup
    rw [hm] at hnodup
    exact (List.nodup_cons.mp hnodup).1
  have hc : s.loc a = .captured := (h.places.captured_iff a).mpr ⟨m, by simp [hm]⟩
  rw [show (caps m).tail = rest by rw [hm, List.tail_cons]]
  refine ⟨h.places.notifyNext hm hnot,
    ⟨h.links.stack_chain, h.links.cv_chain, h.links.cv_tail, ?_, ?_⟩, h.hold_iff, h.free_iff,
    h.side, h.exchange, h.present_of_load (by simp [hc])⟩
  · intro m'
    by_cases hm' : m' = m
    · subst hm'
      simp only [Function.update_self]
      exact hrest
    · simp only [Function.update_of_ne hm']
      exact h.links.cap_chain m'
  · exact (h.links.setLoc (by simp)).cas_link

/-! ## The holder outside of `unlock` -/

omit [DecidableEq κ] [DecidableEq ν] in
/-- The holder, not in `unlock`, moves to another such position. -/
theorem Inv.goto {x : Hold ι} (h : Inv s o stack resume cvs caps) (hi : (s.hold i).Present)
    (hx : x.Present ∨ x = .readResumeList) :
    o = some i ∧ Inv (s.setHold i x) (some i) stack resume cvs caps := by
  have hne : s.hold i ≠ .none := by
    intro hnone
    rw [hnone] at hi
    exact hi
  have ho := h.holder hne
  subst ho
  have hside := h.side
  simp only [phase, Option.elim] at hside
  have hchain : Chain s.next s.resumeList resume := by
    cases hh : s.hold i <;> rw [hh] at hi hside <;> first | exact hside | exact hi.elim
  refine ⟨rfl, h.setHold ?_ ?_ ?_ fun _ => h.present i hi⟩
  · intro hnone
    subst hnone
    rcases hx with hx | hx
    · exact hx
    · cases hx
  · cases x <;> first | exact hchain | exact (hx.elim (fun hp => hp.elim) nofun)
  · intro hexch
    subst hexch
    rcases hx with hx | hx
    · exact hx.elim
    · cases hx

end Lemmas

end SheepCoro.Sync
