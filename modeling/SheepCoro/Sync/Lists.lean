import SheepCoro.Sync.Model
import SheepCoro.Lib.Chain
import Mathlib.Tactic.Common

/-!
# The lists of the mutex and of its condition variables

Every awaiter that waits is on exactly one list.  `Places` says on which one
by its `loc`; `Links` says that the lists are what the pointers reach.  The
list that the holder of the lock works on is not in one piece while `unlock`
reverses it, so what the pointers reach there depends on the position of the
holder (`ResumeSide`).

The lemmas are the frame rules of these three: an awaiter outside of all
lists may change its place and its link, and an awaiter moves from one list
to another.
-/

namespace SheepCoro.Sync

open Lib

variable {ι κ ν : Type} [DecidableEq ι] [DecidableEq κ] [DecidableEq ν]

/-- The awaiter is on a list. -/
def Loc.Waiting : Loc ι κ → Prop
  | .parked _ | .captured | .queued => True
  | .none | .load | .cas _ => False

/-- Which list an awaiter is on. -/
structure Places (loc : ι → Loc ι κ) (stack resume : List ι) (cvs : κ → List ι)
    (caps : ν → List ι) : Prop where
  queued_iff : ∀ i, loc i = .queued ↔ i ∈ stack ∨ i ∈ resume
  parked_iff : ∀ i k, loc i = .parked k ↔ i ∈ cvs k
  captured_iff : ∀ i, loc i = .captured ↔ ∃ m, i ∈ caps m
  stack_disjoint : ∀ i ∈ stack, i ∉ resume
  caps_disjoint : ∀ i m m', i ∈ caps m → i ∈ caps m' → m = m'

/-- What the pointers reach, apart from the resume list. -/
structure Links (s : State ι κ ν) (stack : List ι) (cvs : κ → List ι) (caps : ν → List ι) :
    Prop where
  stack_chain : Chain s.next s.state.head stack
  cv_chain : ∀ k, Chain s.next (s.cvHead k) (cvs k)
  cv_tail : ∀ k, s.cvTail k = (cvs k).getLast?
  cap_chain : ∀ m, Chain s.next (s.curHead m) (caps m)
  /-- The link is stored before the compare-and-exchange. -/
  cas_link : ∀ i v, s.loc i = .cas v → s.next i = v.head

/-- What the pointers reach on the side of the holder. -/
def ResumeSide (next : ι → Option ι) (resumeList : Option ι) : Hold ι → List ι → Prop
  | .none, xs | .casUnlock, xs | .exchange, xs => xs = [] ∧ resumeList = none
  | .reverse a t, xs => resumeList = none ∧ xs.Nodup ∧
      ∃ ys zs, xs = ys ++ zs ∧ Chain next (some a) ys ∧ Chain next t zs
  | .popResumeList t, xs => Chain next (some t) xs
  | .handOff t, xs => ∃ ys, xs = t :: ys ∧ t ∉ ys ∧ Chain next resumeList ys
  | .granted, xs | .inside, xs | .evalWait, xs | .evalResume, xs | .registerCv, xs
  | .readResumeList, xs => Chain next resumeList xs

/-- The list of the holder in the order in which the lock is passed on.  In
the loop of `unlock` the newest awaiter of the part that is still to be
reversed comes first. -/
def InOrder (next : ι → Option ι) : Hold ι → List ι → List ι → Prop
  | .reverse a t, xs, line =>
    ∃ ys zs, xs = ys ++ zs ∧ Chain next (some a) ys ∧ Chain next t zs ∧ line = ys.reverse ++ zs
  | _, xs, line => line = xs

/-- The holder is in the loop that reverses the stack. -/
def Hold.Reverses : Hold ι → Prop
  | .reverse _ _ => True
  | _ => False

/-! ## Places -/

section Places

variable {loc : ι → Loc ι κ} {stack resume : List ι} {cvs : κ → List ι} {caps : ν → List ι}
  {i : ι} {l : Loc ι κ}

section

omit [DecidableEq ι] [DecidableEq κ] [DecidableEq ν]

/-- An awaiter that is on no list. -/
theorem Places.not_mem (h : Places loc stack resume cvs caps) (hi : ¬ (loc i).Waiting) :
    i ∉ stack ∧ i ∉ resume ∧ (∀ k, i ∉ cvs k) ∧ ∀ m, i ∉ caps m := by
  refine ⟨fun hm => hi ?_, fun hm => hi ?_, fun k hm => hi ?_, fun m hm => hi ?_⟩
  · rw [(h.queued_iff i).mpr (.inl hm)]
    trivial
  · rw [(h.queued_iff i).mpr (.inr hm)]
    trivial
  · rw [(h.parked_iff i k).mpr hm]
    trivial
  · rw [(h.captured_iff i).mpr ⟨m, hm⟩]
    trivial

/-- An awaiter on a list of the mutex is on no other list. -/
theorem Places.queued_not_mem (h : Places loc stack resume cvs caps) (hi : loc i = .queued) :
    (∀ k, i ∉ cvs k) ∧ ∀ m, i ∉ caps m := by
  refine ⟨fun k hm => ?_, fun m hm => ?_⟩
  · have := (h.parked_iff i k).mpr hm
    rw [hi] at this
    cases this
  · have := (h.captured_iff i).mpr ⟨m, hm⟩
    rw [hi] at this
    cases this

/-- A waiter of a condition variable is on no other list. -/
theorem Places.parked_not_mem {k : κ} (h : Places loc stack resume cvs caps)
    (hi : loc i = .parked k) : i ∉ stack ∧ i ∉ resume ∧ (∀ m, i ∉ caps m) ∧
      ∀ k', k' ≠ k → i ∉ cvs k' := by
  have hq : loc i ≠ .queued := by simp [hi]
  refine ⟨fun hm => hq ((h.queued_iff i).mpr (.inl hm)),
    fun hm => hq ((h.queued_iff i).mpr (.inr hm)), fun m hm => ?_, fun k' hk hm => ?_⟩
  · have := (h.captured_iff i).mpr ⟨m, hm⟩
    rw [hi] at this
    cases this
  · have := (h.parked_iff i k').mpr hm
    rw [hi] at this
    cases this
    exact hk rfl

end

section

omit [DecidableEq κ] [DecidableEq ν]

/-- An awaiter changes its place, and the lists change for this awaiter only. -/
theorem Places.relocate {stack' resume' : List ι} {cvs' : κ → List ι} {caps' : ν → List ι}
    (h : Places loc stack resume cvs caps)
    (hqueued : l = .queued ↔ i ∈ stack' ∨ i ∈ resume') (hparked : ∀ k, l = .parked k ↔ i ∈ cvs' k)
    (hcaptured : l = .captured ↔ ∃ m, i ∈ caps' m)
    (hlock : ∀ j, j ≠ i → (j ∈ stack' ∨ j ∈ resume' ↔ j ∈ stack ∨ j ∈ resume))
    (hcvs : ∀ j, j ≠ i → ∀ k, (j ∈ cvs' k ↔ j ∈ cvs k))
    (hcaps : ∀ j, j ≠ i → ((∃ m, j ∈ caps' m) ↔ ∃ m, j ∈ caps m))
    (hdisj : ∀ j ∈ stack', j ∉ resume')
    (hone : ∀ j m₁ m₂, j ∈ caps' m₁ → j ∈ caps' m₂ → m₁ = m₂) :
    Places (Function.update loc i l) stack' resume' cvs' caps' := by
  refine ⟨fun j => ?_, fun j k => ?_, fun j => ?_, hdisj, hone⟩
  · by_cases hj : j = i
    · rw [hj, Function.update_self]
      exact hqueued
    · rw [Function.update_of_ne hj, h.queued_iff]
      exact (hlock j hj).symm
  · by_cases hj : j = i
    · rw [hj, Function.update_self]
      exact hparked k
    · rw [Function.update_of_ne hj, h.parked_iff]
      exact (hcvs j hj k).symm
  · by_cases hj : j = i
    · rw [hj, Function.update_self]
      exact hcaptured
    · rw [Function.update_of_ne hj, h.captured_iff]
      exact (hcaps j hj).symm

/-- An awaiter moves while it is on no list. -/
theorem Places.move (h : Places loc stack resume cvs caps) (hi : ¬ (loc i).Waiting)
    (hl : ¬ l.Waiting) : Places (Function.update loc i l) stack resume cvs caps := by
  obtain ⟨hstack, hresume, hcvs, hcaps⟩ := h.not_mem hi
  refine h.relocate ⟨fun heq => absurd (heq ▸ trivial) hl, fun hm => ?_⟩
    (fun k => ⟨fun heq => absurd (heq ▸ trivial) hl, fun hm => absurd hm (hcvs k)⟩)
    ⟨fun heq => absurd (heq ▸ trivial) hl, fun hm => ?_⟩ (fun _ _ => Iff.rfl)
    (fun _ _ _ => Iff.rfl) (fun _ _ => Iff.rfl) h.stack_disjoint h.caps_disjoint
  · exact absurd hm (not_or.mpr ⟨hstack, hresume⟩)
  · obtain ⟨m, hm⟩ := hm
    exact absurd hm (hcaps m)

/-- An awaiter is pushed onto the stack. -/
theorem Places.push (h : Places loc stack resume cvs caps) (hi : ¬ (loc i).Waiting) :
    Places (Function.update loc i .queued) (i :: stack) resume cvs caps := by
  obtain ⟨hstack, hresume, hcvs, hcaps⟩ := h.not_mem hi
  refine h.relocate (by simp) (fun k => by simp [hcvs k]) (by simp [hcaps]) (fun j hj => ?_)
    (fun _ _ _ => Iff.rfl) (fun _ _ => Iff.rfl) (fun j hj => ?_) h.caps_disjoint
  · simp [hj]
  · rcases List.mem_cons.mp hj with hj | hj
    · rw [hj]
      exact hresume
    · exact h.stack_disjoint j hj

omit [DecidableEq ι] in
/-- The holder takes over the stack, or changes the order of its list. -/
theorem Places.regroup {stack' resume' : List ι} (h : Places loc stack resume cvs caps)
    (hmem : ∀ j, j ∈ stack' ∨ j ∈ resume' ↔ j ∈ stack ∨ j ∈ resume)
    (hdisj : ∀ j ∈ stack', j ∉ resume') : Places loc stack' resume' cvs caps :=
  ⟨fun j => (h.queued_iff j).trans (hmem j).symm, h.parked_iff, h.captured_iff, hdisj,
    h.caps_disjoint⟩

/-- The first awaiter of the resume list leaves it. -/
theorem Places.handOff {rest : List ι} (h : Places loc stack (i :: rest) cvs caps)
    (hi : i ∉ rest) : Places (Function.update loc i .none) stack rest cvs caps := by
  have hq : loc i = .queued := (h.queued_iff i).mpr (.inr (List.mem_cons_self ..))
  obtain ⟨hcvs, hcaps⟩ := h.queued_not_mem hq
  have hstack : i ∉ stack := fun hm => h.stack_disjoint i hm (List.mem_cons_self ..)
  refine h.relocate (by simp [hstack, hi]) (fun k => by simp [hcvs k]) (by simp [hcaps])
    (fun j hj => ?_) (fun _ _ _ => Iff.rfl) (fun _ _ => Iff.rfl) (fun j hj hm => ?_)
    h.caps_disjoint
  · simp [hj]
  · exact h.stack_disjoint j hj (List.mem_cons_of_mem _ hm)

end

omit [DecidableEq ν] in
/-- A waiter is appended to the list of a condition variable. -/
theorem Places.park {k : κ} (h : Places loc stack resume cvs caps) (hi : ¬ (loc i).Waiting) :
    Places (Function.update loc i (.parked k)) stack resume
      (Function.update cvs k (cvs k ++ [i])) caps := by
  obtain ⟨hstack, hresume, hcvs, hcaps⟩ := h.not_mem hi
  refine h.relocate (by simp [hstack, hresume]) (fun k' => ?_) (by simp [hcaps])
    (fun _ _ => Iff.rfl) (fun j hj k' => ?_) (fun _ _ => Iff.rfl) h.stack_disjoint h.caps_disjoint
  · by_cases hk : k' = k
    · subst hk
      simp
    · simp [hk, Ne.symm hk, hcvs k']
  · by_cases hk : k' = k
    · subst hk
      simp [hj]
    · rw [Function.update_of_ne hk]

omit [DecidableEq ν] in
/-- The first waiter of a condition variable is notified. -/
theorem Places.notifyOne {k : κ} {rest : List ι} (h : Places loc stack resume cvs caps)
    (hk : cvs k = i :: rest) (hi : i ∉ rest) :
    Places (Function.update loc i .load) stack resume (Function.update cvs k rest) caps := by
  have hp : loc i = .parked k := (h.parked_iff i k).mpr (by rw [hk]; exact List.mem_cons_self ..)
  obtain ⟨hstack, hresume, hcaps, hcvs⟩ := h.parked_not_mem hp
  refine h.relocate (by simp [hstack, hresume]) (fun k' => ?_) (by simp [hcaps])
    (fun _ _ => Iff.rfl) (fun j hj k' => ?_) (fun _ _ => Iff.rfl) h.stack_disjoint h.caps_disjoint
  · by_cases hk' : k' = k
    · subst hk'
      simp [hi]
    · simp [hk', hcvs k' hk']
  · by_cases hk' : k' = k
    · subst hk'
      simp [hk, hj]
    · rw [Function.update_of_ne hk']

/-- A notifier takes all the waiters of a condition variable. -/
theorem Places.notifyAll {k : κ} {m : ν} (h : Places loc stack resume cvs caps)
    (hm : caps m = []) :
    Places (fun j => if loc j = .parked k then .captured else loc j) stack resume
      (Function.update cvs k []) (Function.update caps m (cvs k)) := by
  have hother : ∀ j m', m' ≠ m → j ∈ caps m' → loc j = .captured := fun j m' _ hj =>
    (h.captured_iff j).mpr ⟨m', hj⟩
  refine ⟨?_, ?_, ?_, h.stack_disjoint, ?_⟩
  · intro j
    rw [← h.queued_iff]
    split_ifs with hj
    · simp [hj]
    · rfl
  · intro j k'
    by_cases hk' : k' = k
    · subst hk'
      simp only [Function.update_self, List.not_mem_nil, iff_false]
      split_ifs with hj
      · simp
      · exact hj
    · rw [Function.update_of_ne hk', ← h.parked_iff]
      split_ifs with hj
      · simp only [hj, Loc.parked.injEq, false_iff]
        exact fun heq => hk' heq.symm
      · rfl
  · intro j
    split_ifs with hj
    · simp only [true_iff]
      exact ⟨m, by rw [Function.update_self]; exact (h.parked_iff j k).mp hj⟩
    · rw [h.captured_iff]
      constructor
      · intro hcap
        obtain ⟨m', hm'⟩ := hcap
        have hne : m' ≠ m := by
          intro heq
          rw [heq, hm] at hm'
          cases hm'
        exact ⟨m', by rwa [Function.update_of_ne hne]⟩
      · intro hcap
        obtain ⟨m', hm'⟩ := hcap
        by_cases hne : m' = m
        · rw [hne, Function.update_self] at hm'
          exact absurd ((h.parked_iff j k).mpr hm') hj
        · rw [Function.update_of_ne hne] at hm'
          exact ⟨m', hm'⟩
  · intro j m₁ m₂ h₁ h₂
    by_cases e₁ : m₁ = m <;> by_cases e₂ : m₂ = m
    · rw [e₁, e₂]
    · rw [e₁, Function.update_self] at h₁
      rw [Function.update_of_ne e₂] at h₂
      have hcap := hother j m₂ e₂ h₂
      rw [(h.parked_iff j k).mpr h₁] at hcap
      cases hcap
    · rw [Function.update_of_ne e₁] at h₁
      rw [e₂, Function.update_self] at h₂
      have hcap := hother j m₁ e₁ h₁
      rw [(h.parked_iff j k).mpr h₂] at hcap
      cases hcap
    · rw [Function.update_of_ne e₁] at h₁
      rw [Function.update_of_ne e₂] at h₂
      exact h.caps_disjoint j m₁ m₂ h₁ h₂

omit [DecidableEq κ] in
/-- A notifier wakes the first awaiter of its list. -/
theorem Places.notifyNext {m : ν} {rest : List ι} (h : Places loc stack resume cvs caps)
    (hm : caps m = i :: rest) (hi : i ∉ rest) :
    Places (Function.update loc i .load) stack resume cvs (Function.update caps m rest) := by
  have hmem : i ∈ caps m := by rw [hm]; exact List.mem_cons_self ..
  have hc : loc i = .captured := (h.captured_iff i).mpr ⟨m, hmem⟩
  have hsub : ∀ j m', j ∈ Function.update caps m rest m' → j ∈ caps m' := by
    intro j m' hj
    by_cases hne : m' = m
    · subst hne
      rw [Function.update_self] at hj
      rw [hm]
      exact List.mem_cons_of_mem _ hj
    · rwa [Function.update_of_ne hne] at hj
  refine h.relocate ?_ (fun k => ?_) ?_ (fun _ _ => Iff.rfl) (fun _ _ _ => Iff.rfl)
    (fun j hj => ?_) h.stack_disjoint fun j m₁ m₂ h₁ h₂ =>
      h.caps_disjoint j m₁ m₂ (hsub j m₁ h₁) (hsub j m₂ h₂)
  · rw [← h.queued_iff, hc]
    simp
  · rw [← h.parked_iff, hc]
    simp
  · simp only [reduceCtorEq, false_iff, not_exists]
    intro m' hm'
    -- Nobody else has the awaiter, and the notifier had it once.
    have hne := h.caps_disjoint i m' m (hsub i m' hm') hmem
    rw [hne, Function.update_self] at hm'
    exact hi hm'
  · constructor
    · intro hcap
      obtain ⟨m', hm'⟩ := hcap
      exact ⟨m', hsub j m' hm'⟩
    · intro hcap
      obtain ⟨m', hm'⟩ := hcap
      refine ⟨m', ?_⟩
      by_cases hne : m' = m
      · subst hne
        rw [Function.update_self]
        rw [hm] at hm'
        exact (List.mem_cons.mp hm').resolve_left hj
      · rwa [Function.update_of_ne hne]

end Places

/-! ## Links -/

section Links

variable {s : State ι κ ν} {stack : List ι} {cvs : κ → List ι} {caps : ν → List ι} {i : ι}
  {p : Option ι}

section

omit [DecidableEq κ] [DecidableEq ν]

/-- A store to the link of an awaiter that is on none of the lists. -/
theorem Links.setNext (h : Links s stack cvs caps) (hstack : i ∉ stack)
    (hcvs : ∀ k, i ∉ cvs k) (hcaps : ∀ m, i ∉ caps m) (hcas : ∀ v, s.loc i ≠ .cas v) :
    Links (s.setNext i p) stack cvs caps := by
  refine ⟨h.stack_chain.update hstack, fun k => (h.cv_chain k).update (hcvs k), h.cv_tail,
    fun m => (h.cap_chain m).update (hcaps m), ?_⟩
  intro j v hj
  have hne : j ≠ i := by
    intro heq
    rw [heq] at hj
    exact hcas v hj
  simp only [State.setNext, Function.update_of_ne hne]
  exact h.cas_link j v hj

/-- An awaiter changes its place.  The word that it has loaded, if any, is
the one that its link was stored from. -/
theorem Links.setLoc {l : Loc ι κ} (h : Links s stack cvs caps)
    (hl : ∀ v, l = .cas v → s.next i = v.head) : Links (s.setLoc i l) stack cvs caps := by
  refine ⟨h.stack_chain, h.cv_chain, h.cv_tail, h.cap_chain, ?_⟩
  intro j v hj
  by_cases hji : j = i
  · subst hji
    simp only [State.setLoc, Function.update_self] at hj
    exact hl v hj
  · simp only [State.setLoc, Function.update_of_ne hji] at hj
    exact h.cas_link j v hj

theorem Links.setHold {x : Hold ι} (h : Links s stack cvs caps) :
    Links (s.setHold i x) stack cvs caps :=
  ⟨h.stack_chain, h.cv_chain, h.cv_tail, h.cap_chain, h.cas_link⟩

end

/-- The list of the holder does not contain the awaiter. -/
theorem ResumeSide.update {next : ι → Option ι} {r : Option ι} {x : Hold ι} {xs : List ι}
    (h : ResumeSide next r x xs) (hi : i ∉ xs) :
    ResumeSide (Function.update next i p) r x xs := by
  cases x with
  | none | casUnlock | exchange => exact h
  | reverse a t =>
    obtain ⟨hr, hnodup, ys, zs, rfl, hys, hzs⟩ := h
    refine ⟨hr, hnodup, ys, zs, rfl, hys.update fun hm => hi ?_, hzs.update fun hm => hi ?_⟩
    · exact List.mem_append_left _ hm
    · exact List.mem_append_right _ hm
  | handOff t =>
    obtain ⟨ys, rfl, hnot, hys⟩ := h
    exact ⟨ys, rfl, hnot, hys.update fun hm => hi (List.mem_cons_of_mem _ hm)⟩
  | popResumeList t => exact Chain.update hi h
  | granted | inside | evalWait | evalResume | registerCv | readResumeList =>
    exact Chain.update hi h

omit [DecidableEq ι] in
theorem inOrder_iff {next : ι → Option ι} {x : Hold ι} {xs line : List ι}
    (hx : ¬ x.Reverses) : InOrder next x xs line ↔ line = xs := by
  cases x with
  | reverse a t => exact absurd trivial hx
  | none | granted | inside | evalWait | evalResume | registerCv | readResumeList | casUnlock
  | exchange | popResumeList | handOff => exact Iff.rfl

theorem InOrder.update {next : ι → Option ι} {x : Hold ι} {xs line : List ι}
    (h : InOrder next x xs line) (hi : i ∉ xs) : InOrder (Function.update next i p) x xs line := by
  cases x with
  | reverse a t =>
    obtain ⟨ys, zs, rfl, hys, hzs, hline⟩ := h
    refine ⟨ys, zs, rfl, hys.update fun hm => hi ?_, hzs.update fun hm => hi ?_, hline⟩
    · exact List.mem_append_left _ hm
    · exact List.mem_append_right _ hm
  | none | granted | inside | evalWait | evalResume | registerCv | readResumeList | casUnlock
  | exchange | popResumeList | handOff => exact h

omit [DecidableEq ι] in
theorem InOrder.perm {next : ι → Option ι} {x : Hold ι} {xs line : List ι}
    (h : InOrder next x xs line) : line.Perm xs := by
  cases x with
  | reverse a t =>
    obtain ⟨ys, zs, rfl, -, -, rfl⟩ := h
    exact ys.reverse_perm.append_right zs
  | none | granted | inside | evalWait | evalResume | registerCv | readResumeList | casUnlock
  | exchange | popResumeList | handOff =>
    rw [show line = xs from h]

omit [DecidableEq ι] in
theorem ResumeSide.nodup {next : ι → Option ι} {r : Option ι} {x : Hold ι} {xs : List ι}
    (h : ResumeSide next r x xs) : xs.Nodup := by
  cases x with
  | none | casUnlock | exchange =>
    rw [h.1]
    exact List.nodup_nil
  | reverse a t => exact h.2.1
  | handOff t =>
    obtain ⟨ys, rfl, hnot, hys⟩ := h
    exact List.nodup_cons.mpr ⟨hnot, hys.nodup⟩
  | popResumeList t => exact Chain.nodup h
  | granted | inside | evalWait | evalResume | registerCv | readResumeList => exact Chain.nodup h

end Links

end SheepCoro.Sync
