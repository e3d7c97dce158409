import SheepCoro.Spin.Model
import SheepCoro.Sync.Frame

/-!
# Steps that do not see the lists of the condition variables

A step of `Sync` outside of the sections reads and writes the link of one
awaiter at most, and never `m_head` and `m_tail`.  So it can be taken with
other contents of `m_head`, `m_tail` and of the links of all other awaiters
(`step_graft`).  The awaiter whose link it touches is neither parked nor in
`register_cv` (`touched_free`).
-/

namespace SheepCoro.Spin

open Lib

open Sync (Good)

variable {ι κ ν : Type} [DecidableEq ι] [DecidableEq κ] [DecidableEq ν]
  {s s' : Sync.State ι κ ν} {a : Sync.Label ι κ ν} {n : ι → Option ι} {h t : κ → Option ι}

/-- The same state with other lists of the condition variables. -/
def graft (s : Sync.State ι κ ν) (n : ι → Option ι) (h t : κ → Option ι) : Sync.State ι κ ν :=
  { s with
    next := n
    cvHead := h
    cvTail := t }

section

omit [DecidableEq ι] [DecidableEq κ] [DecidableEq ν]

@[simp] theorem graft_next : (graft s n h t).next = n := rfl

@[simp] theorem graft_cvHead : (graft s n h t).cvHead = h := rfl

@[simp] theorem graft_cvTail : (graft s n h t).cvTail = t := rfl

/-- The awaiter whose link a step reads or writes. -/
def touched (s : Sync.State ι κ ν) : Sync.Label ι κ ν → Option ι
  | .registerLock i _ => some i
  | .unlock i =>
    match s.hold i with
    | .reverse a _ => some a
    | .popResumeList a => some a
    | _ => none
  | .notifyNext m => s.curHead m
  | .reuse i _ => some i
  | _ => none

/-- What a step that is taken with other lists does to the links. -/
structure Grafts (s s' : Sync.State ι κ ν) (a : Sync.Label ι κ ν) (n n' : ι → Option ι) : Prop where
  head : s'.cvHead = s.cvHead
  tail : s'.cvTail = s.cvTail
  same : ∀ y, touched s a = some y → n' y = s'.next y
  others : ∀ y, touched s a ≠ some y → n' y = n y ∧ s'.next y = s.next y
  /-- A caller of `notify_all` that has nobody to wake does not get anybody. -/
  curHead : ∀ m, s.curHead m = none → s'.curHead m = none

/-- The step does not write a link. -/
theorem Grafts.of_next (hhead : s'.cvHead = s.cvHead) (htail : s'.cvTail = s.cvTail)
    (hnext : s'.next = s.next) (hcur : ∀ m, s.curHead m = none → s'.curHead m = none)
    (hsame : ∀ y, touched s a = some y → n y = s.next y) : Grafts s s' a n n where
  head := hhead
  tail := htail
  same y hy := by rw [hsame y hy, hnext]
  others y _ := ⟨rfl, by rw [hnext]⟩
  curHead := hcur

end

section

omit [DecidableEq κ] [DecidableEq ν]

/-- The step writes a link. -/
theorem Grafts.of_update {i : ι} {p : Option ι} (hhead : s'.cvHead = s.cvHead)
    (htail : s'.cvTail = s.cvTail) (hnext : s'.next = Function.update s.next i p)
    (hcur : s'.curHead = s.curHead) (htouched : touched s a = some i) :
    Grafts s s' a n (Function.update n i p) where
  head := hhead
  tail := htail
  same y hy := by
    obtain rfl := Option.some.inj (htouched.symm.trans hy)
    rw [hnext, Function.update_self, Function.update_self]
  others y hy := by
    have hne : y ≠ i := by
      rintro rfl
      exact hy htouched
    rw [hnext, Function.update_of_ne hne, Function.update_of_ne hne]
    exact ⟨rfl, rfl⟩
  curHead m hm := by rw [hcur, hm]

theorem registerLock_graft {i : ι} {spurious : Bool} (hs : Sync.registerLock s i spurious = some s')
    (hsame : ∀ y, touched s (.registerLock i spurious) = some y → n y = s.next y) :
    ∃ n', Sync.registerLock (graft s n h t) i spurious = some (graft s' n' h t) ∧
      Grafts s s' (.registerLock i spurious) n n' := by
  have hloc : (graft s n h t).loc i = s.loc i := rfl
  unfold Sync.registerLock at hs ⊢
  rw [hloc]
  split at hs
  · cases hs
    exact ⟨Function.update n i s.state.head, rfl, .of_update rfl rfl rfl rfl rfl⟩
  · next expected _ =>
    have hstate : (graft s n h t).state = s.state := rfl
    rw [hstate]
    split_ifs at hs ⊢ with hcond
    · cases expected with
      | nolocked =>
        cases hs
        exact ⟨n, rfl, .of_next rfl rfl rfl (fun _ hm => hm) hsame⟩
      | locked head =>
        cases hs
        exact ⟨n, rfl, .of_next rfl rfl rfl (fun _ hm => hm) hsame⟩
    · cases hs
      exact ⟨n, rfl, .of_next rfl rfl rfl (fun _ hm => hm) hsame⟩
  · cases hs

theorem unlock_graft {i : ι} (hs : Sync.unlock s i = some s')
    (hsame : ∀ y, touched s (.unlock i : Sync.Label ι κ ν) = some y → n y = s.next y) :
    ∃ n', Sync.unlock (graft s n h t) i = some (graft s' n' h t) ∧
      Grafts s s' (.unlock i) n n' := by
  have hhold : (graft s n h t).hold i = s.hold i := rfl
  unfold Sync.unlock at hs ⊢
  rw [hhold]
  split at hs
  · next hi =>
    have hlist : (graft s n h t).resumeList = s.resumeList := rfl
    rw [hlist]
    split at hs
    · cases hs
      exact ⟨n, rfl, .of_next rfl rfl rfl (fun _ hm => hm) hsame⟩
    · cases hs
      exact ⟨n, rfl, .of_next rfl rfl rfl (fun _ hm => hm) hsame⟩
  · have hstate : (graft s n h t).state = s.state := rfl
    rw [hstate]
    split_ifs at hs ⊢
    · cases hs
      exact ⟨n, rfl, .of_next rfl rfl rfl (fun _ hm => hm) hsame⟩
    · cases hs
      exact ⟨n, rfl, .of_next rfl rfl rfl (fun _ hm => hm) hsame⟩
  · have hstate : (graft s n h t).state = s.state := rfl
    rw [hstate]
    split at hs
    · cases hs
      exact ⟨n, rfl, .of_next rfl rfl rfl (fun _ hm => hm) hsame⟩
    · cases hs
  · next b p hi =>
    have htouched : touched s (.unlock i : Sync.Label ι κ ν) = some b := by
      simp only [touched, hi]
    have hnext : (graft s n h t).next b = s.next b := hsame b htouched
    rw [hnext]
    split at hs
    · cases hs
      exact ⟨Function.update n b p, rfl, .of_update rfl rfl rfl rfl htouched⟩
    · cases hs
      exact ⟨Function.update n b p, rfl, .of_update rfl rfl rfl rfl htouched⟩
  · next b hi =>
    have htouched : touched s (.unlock i : Sync.Label ι κ ν) = some b := by
      simp only [touched, hi]
    have hnext : (graft s n h t).next b = s.next b := hsame b htouched
    rw [hnext]
    cases hs
    exact ⟨n, rfl, .of_next rfl rfl rfl (fun _ hm => hm) hsame⟩
  · cases hs
    exact ⟨n, rfl, .of_next rfl rfl rfl (fun _ hm => hm) hsame⟩
  · cases hs

end

/-- A step outside of the sections can be taken with other lists. -/
theorem step_graft (houtside : outside s a = true) (hs : Sync.step s a = some s')
    (hsame : ∀ y, touched s a = some y → n y = s.next y) :
    ∃ n', Sync.step (graft s n h t) a = some (graft s' n' h t) ∧ Grafts s s' a n n' := by
  cases a with
  | registerLock i spurious => exact registerLock_graft hs hsame
  | unlock i => exact unlock_graft hs hsame
  | registerCv i => cases houtside
  | notifyOne k => cases houtside
  | notifyAll m k => cases houtside
  | lock i =>
    obtain ⟨hcond, ⟨⟩⟩ := Option.ite_none_right_eq_some.mp hs
    exact ⟨n, if_pos hcond, .of_next rfl rfl rfl (fun _ hm => hm) hsame⟩
  | tryLock i =>
    obtain ⟨hcond, hs⟩ := Option.ite_none_right_eq_some.mp hs
    split_ifs at hs with hfree
    · cases hs
      exact ⟨n, (if_pos hcond).trans (if_pos hfree), .of_next rfl rfl rfl (fun _ hm => hm) hsame⟩
    · cases hs
      exact ⟨n, (if_pos hcond).trans (if_neg hfree), .of_next rfl rfl rfl (fun _ hm => hm) hsame⟩
  | enter i =>
    obtain ⟨hcond, ⟨⟩⟩ := Option.ite_none_right_eq_some.mp hs
    exact ⟨n, if_pos hcond, .of_next rfl rfl rfl (fun _ hm => hm) hsame⟩
  | callUnlock i =>
    obtain ⟨hcond, ⟨⟩⟩ := Option.ite_none_right_eq_some.mp hs
    exact ⟨n, if_pos hcond, .of_next rfl rfl rfl (fun _ hm => hm) hsame⟩
  | wait i k hasCond =>
    obtain ⟨hcond, ⟨⟩⟩ := Option.ite_none_right_eq_some.mp hs
    exact ⟨n, if_pos hcond, .of_next rfl rfl rfl (fun _ hm => hm) hsame⟩
  | eval i value =>
    have hhold : (graft s n h t).hold i = s.hold i := rfl
    simp only [Sync.step] at hs ⊢
    rw [hhold]
    split at hs
    · cases hs
      exact ⟨n, rfl, .of_next rfl rfl rfl (fun _ hm => hm) hsame⟩
    · cases hs
      exact ⟨n, rfl, .of_next rfl rfl rfl (fun _ hm => hm) hsame⟩
    · cases hs
  | notifyNext m =>
    have hcur : (graft s n h t).curHead m = s.curHead m := rfl
    simp only [Sync.step] at hs ⊢
    rw [hcur]
    split at hs
    · next b hb =>
      have hnext : (graft s n h t).next b = s.next b := hsame b hb
      simp only [hnext]
      cases hs
      refine ⟨n, rfl, .of_next rfl rfl rfl ?_ hsame⟩
      intro m' hm
      have hne : m' ≠ m := by
        rintro rfl
        rw [hb] at hm
        cases hm
      exact (Function.update_of_ne hne ..).trans hm
    · cases hs
  | reuse i p =>
    obtain ⟨hcond, ⟨⟩⟩ := Option.ite_none_right_eq_some.mp hs
    exact ⟨Function.update n i p, if_pos hcond, .of_update rfl rfl rfl rfl rfl⟩

/-! ## What such a step touches -/

omit [DecidableEq ι] [DecidableEq κ] [DecidableEq ν] in
theorem tail_parked {k : κ} {i : ι} (hg : Good s) (hi : s.cvTail k = some i) :
    s.loc i = .parked k := by
  obtain ⟨o, stack, resume, cvs, caps, hinv⟩ := hg
  rw [hinv.links.cv_tail k] at hi
  exact (hinv.places.parked_iff i k).mpr (List.mem_of_getLast? hi)

omit [DecidableEq ι] [DecidableEq κ] [DecidableEq ν] in
/-- What `unlock` works on waits for the mutex. -/
theorem unlock_queued {i b : ι} (hg : Good s)
    (hi : (∃ p, s.hold i = .reverse b p) ∨ s.hold i = .popResumeList b) : s.loc b = .queued := by
  obtain ⟨o, stack, resume, cvs, caps, hinv⟩ := hg
  have hne : s.hold i ≠ .none := by
    rcases hi with ⟨p, hi⟩ | hi <;> rw [hi] <;> simp
  obtain rfl := hinv.holder hne
  have hside : Sync.ResumeSide s.next s.resumeList (s.hold i) resume := hinv.side
  have hmem : b ∈ resume := by
    rcases hi with ⟨p, hi⟩ | hi
    · rw [hi] at hside
      obtain ⟨_, _, ys, zs, rfl, hys, _⟩ := hside
      obtain ⟨rest, rfl, _⟩ := Chain.some_iff.mp hys
      exact List.mem_append_left zs (List.mem_cons_self ..)
    · rw [hi] at hside
      obtain ⟨rest, rfl, _⟩ := Chain.some_iff.mp hside
      exact List.mem_cons_self ..
  exact (hinv.places.queued_iff b).mpr (.inr hmem)

/-- A step outside of the sections touches no parked awaiter and none in
`register_cv`. -/
theorem touched_free {y : ι} (hg : Good (graft s n h t)) (houtside : outside s a = true)
    (hs : Sync.step s a = some s') (hy : touched s a = some y) :
    (∀ k, s.loc y ≠ .parked k) ∧ s.hold y ≠ .registerCv := by
  have hpresent : s.loc y ≠ .none → s.hold y ≠ .registerCv := by
    intro hloc hhold
    have hnone : (graft s n h t).loc y = .none := hg.loc_eq_none (i := y) (by
      show (s.hold y).Present
      rw [hhold]
      trivial)
    exact hloc hnone
  cases a with
  | registerLock i spurious =>
    cases hy
    have hload : s.loc y = .load ∨ ∃ v, s.loc y = .cas v := by
      simp only [Sync.step, Sync.registerLock] at hs
      split at hs
      · next hloc => exact .inl hloc
      · next v hloc => exact .inr ⟨v, hloc⟩
      · cases hs
    rcases hload with hloc | ⟨v, hloc⟩
    · exact ⟨by simp [hloc], hpresent (by simp [hloc])⟩
    · exact ⟨by simp [hloc], hpresent (by simp [hloc])⟩
  | unlock i =>
    have hqueued : s.loc y = .queued := by
      refine unlock_queued (s := graft s n h t) (i := i) hg ?_
      simp only [touched] at hy
      split at hy
      · next b p hi =>
        cases hy
        exact .inl ⟨p, hi⟩
      · next b hi =>
        cases hy
        exact .inr hi
      · cases hy
    exact ⟨by simp [hqueued], hpresent (by simp [hqueued])⟩
  | notifyNext m =>
    have hcaptured : s.loc y = .captured :=
      Good.curHead_captured (s := graft s n h t) (m := m) hg hy
    exact ⟨by simp [hcaptured], hpresent (by simp [hcaptured])⟩
  | reuse i p =>
    cases hy
    obtain ⟨hloc, _⟩ := Option.ite_none_right_eq_some.mp hs
    exact ⟨by simp [hloc], of_decide_eq_true houtside⟩
  | lock | tryLock | enter | callUnlock | wait | eval | registerCv | notifyOne | notifyAll =>
    cases hy

/-! ## The steps that are sections -/

omit [DecidableEq κ] [DecidableEq ν] in
/-- The lists do not matter for where an awaiter is and what it does. -/
theorem graft_core {c : Sync.State ι κ ν} {i : ι} {x : Sync.Hold ι} {l : Sync.Loc ι κ}
    (hc : c = graft s c.next c.cvHead c.cvTail) :
    graft ((c.setHold i x).setLoc i l) n h t = graft ((s.setHold i x).setLoc i l) n h t := by
  rw [hc]
  rfl

omit [DecidableEq ν] in
theorem registerCv_empty {i : ι} {k : κ} (ht : s.cvTail k = none) :
    Sync.registerCv s i k = graft ((s.setHold i .readResumeList).setLoc i (.parked k))
      (Function.update s.next i none) (Function.update s.cvHead k (some i))
      (Function.update s.cvTail k (some i)) := by
  simp only [Sync.registerCv, Sync.State.setHold, Sync.State.setNext, ht]
  rfl

omit [DecidableEq ν] in
theorem registerCv_behind {i b : ι} {k : κ} (ht : s.cvTail k = some b) :
    Sync.registerCv s i k = graft ((s.setHold i .readResumeList).setLoc i (.parked k))
      (Function.update (Function.update s.next i none) b (some i)) s.cvHead
      (Function.update s.cvTail k (some i)) := by
  simp only [Sync.registerCv, Sync.State.setHold, Sync.State.setNext, ht]
  rfl

end SheepCoro.Spin
