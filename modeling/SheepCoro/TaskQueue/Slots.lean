import SheepCoro.Lib.Places
import SheepCoro.TaskQueue.Model

/-!
# Who works in a slot, and what is in it

`Owners` ties the states of the slots to the threads: a slot is `STORING` or
`LOADING` as long as one thread is between its two stores to the state, and
that thread alone touches the element (`element_exclusive`).

From this nothing is lost and nothing comes twice (`nothing_lost`).  A handle
that `try_push` has taken a ticket for is in the hands of one thread or in one
slot until a `pop` returns it.  This needs no assumption on the tickets: it
holds also where a push overtakes another one that is a lap behind, and where
a counter goes round while a thread sleeps.
-/

namespace SheepCoro.TaskQueue

open Lib

variable {ι E : Type} [DecidableEq ι] {cfg : Config ι} {s s' : State ι E}

/-! ## The owner of a slot -/

/-- The slot that a thread has claimed, and the state it has given to it. -/
def Pc.owns (cfg : Config ι) : Pc E → Option (Word × SlotState)
  | .store _ ticket | .publish ticket => some (cfg.slot ticket, .storing)
  | .load ticket | .release _ ticket => some (cfg.slot ticket, .loading)
  | _ => none

/-- The worker is in `was_size` or in `pop`. -/
def Pc.isWorker : Pc E → Bool
  | .sizeTail .. | .claimStored _ | .seeStored _ | .load _ | .release .. => true
  | _ => false

/-- A thread is between its two stores to the state. -/
def SlotState.busy : SlotState → Bool
  | .storing | .loading => true
  | .empty | .stored => false

structure Owners (cfg : Config ι) (slot : Word → SlotState) (pc : ι → Pc E) : Prop where
  worker : ∀ t, (pc t).isWorker = true → t = cfg.worker
  held : ∀ t i v, (pc t).owns cfg = some (i, v) → slot i = v
  unique : ∀ t t' i v, (pc t).owns cfg = some (i, v) → (pc t').owns cfg = some (i, v) → t = t'
  owner : ∀ i, (slot i).busy = true → ∃ t, (pc t).owns cfg = some (i, slot i)

omit [DecidableEq ι] in
theorem busy_of_owns {p : Pc E} {i : Word} {v : SlotState} (h : p.owns cfg = some (i, v)) :
    v.busy = true := by
  unfold Pc.owns at h
  split at h <;> cases h <;> rfl

section Owners

variable {slot : Word → SlotState} {pc : ι → Pc E} {t : ι} {p : Pc E} {i : Word}
  {v v' : SlotState}

theorem owns_update : (fun x => (Function.update pc t p x).owns cfg) =
    Function.update (fun x => (pc x).owns cfg) t (p.owns cfg) := by
  funext x
  exact Function.apply_update (fun _ q => Pc.owns cfg q) pc t p x

theorem Owners.update_worker (h : Owners cfg slot pc) (hw : p.isWorker = true → t = cfg.worker)
    (x : ι) (hx : (Function.update pc t p x).isWorker = true) : x = cfg.worker := by
  by_cases hxt : x = t
  · subst hxt
    rw [Function.update_self] at hx
    exact hw hx
  · rw [Function.update_of_ne hxt] at hx
    exact h.worker x hx

/-- A thread moves and keeps what it has claimed. -/
theorem Owners.keep (h : Owners cfg slot pc) (howns : p.owns cfg = (pc t).owns cfg)
    (hw : p.isWorker = true → t = cfg.worker) : Owners cfg slot (Function.update pc t p) := by
  have hsame : ∀ x, (Function.update pc t p x).owns cfg = (pc x).owns cfg := by
    intro x
    rw [congrFun owns_update x, howns, Function.update_eq_self t fun x => (pc x).owns cfg]
  refine ⟨h.update_worker hw, ?_, ?_, ?_⟩
  · intro x i v hx
    rw [hsame] at hx
    exact h.held x i v hx
  · intro x x' i v hx hx'
    rw [hsame] at hx hx'
    exact h.unique x x' i v hx hx'
  · intro i hi
    obtain ⟨x, hx⟩ := h.owner i hi
    exact ⟨x, by rw [hsame, hx]⟩

/-- A thread claims a slot that nobody works in. -/
theorem Owners.claim (h : Owners cfg slot pc) (hfree : (slot i).busy = false)
    (hnone : (pc t).owns cfg = none) (howns : p.owns cfg = some (i, v))
    (hw : p.isWorker = true → t = cfg.worker) :
    Owners cfg (Function.update slot i v) (Function.update pc t p) := by
  have hother : ∀ x u, (pc x).owns cfg ≠ some (i, u) := by
    intro x u hx
    have hbusy := busy_of_owns hx
    rw [← h.held x i u hx, hfree] at hbusy
    cases hbusy
  refine ⟨h.update_worker hw, ?_, ?_, ?_⟩
  · intro x j u hx
    rw [congrFun owns_update x, howns] at hx
    rcases update_eq_iff.mp hx with ⟨_, hnew⟩ | ⟨_, hold⟩
    · cases hnew
      exact Function.update_self ..
    · have hji : j ≠ i := by
        rintro rfl
        exact hother x u hold
      rw [Function.update_of_ne hji]
      exact h.held x j u hold
  · intro x x' j u hx hx'
    rw [congrFun owns_update, howns] at hx hx'
    rcases update_eq_iff.mp hx with ⟨hxt, hnew⟩ | ⟨_, hold⟩
    · cases hnew
      rcases update_eq_iff.mp hx' with ⟨hxt', _⟩ | ⟨_, hold'⟩
      · exact hxt.trans hxt'.symm
      · exact absurd hold' (hother x' _)
    · rcases update_eq_iff.mp hx' with ⟨_, hnew⟩ | ⟨_, hold'⟩
      · cases hnew
        exact absurd hold (hother x _)
      · exact h.unique x x' j u hold hold'
  · intro j hj
    by_cases hji : j = i
    · subst hji
      refine ⟨t, ?_⟩
      rw [Function.update_self, Function.update_self, howns]
    · rw [Function.update_of_ne hji] at hj ⊢
      obtain ⟨x, hx⟩ := h.owner j hj
      have hxt : x ≠ t := by
        rintro rfl
        rw [hnone] at hx
        cases hx
      exact ⟨x, by rw [Function.update_of_ne hxt, hx]⟩

omit [DecidableEq ι] in
/-- Two threads have claimed two slots. -/
theorem Owners.slot_ne {t' : ι} {j : Word} (h : Owners cfg slot pc) (hne : t ≠ t')
    (ht : (pc t).owns cfg = some (i, v)) (ht' : (pc t').owns cfg = some (j, v')) : i ≠ j := by
  rintro rfl
  have hv : v = v' := (h.held t i v ht).symm.trans (h.held t' i v' ht')
  exact hne (h.unique t t' i v ht (hv ▸ ht'))

/-- A thread gives its slot up. -/
theorem Owners.free (h : Owners cfg slot pc) (howns : (pc t).owns cfg = some (i, v))
    (hnone : p.owns cfg = none) (hfree : v'.busy = false)
    (hw : p.isWorker = true → t = cfg.worker) :
    Owners cfg (Function.update slot i v') (Function.update pc t p) := by
  refine ⟨h.update_worker hw, ?_, ?_, ?_⟩
  · intro x j u hx
    rw [congrFun owns_update x, hnone] at hx
    have hold := of_update_eq hx (by simp)
    have hxt : x ≠ t := by
      rintro rfl
      rw [Function.update_self] at hx
      cases hx
    have hji : j ≠ i := h.slot_ne hxt hold howns
    rw [Function.update_of_ne hji]
    exact h.held x j u hold
  · intro x x' j u hx hx'
    rw [congrFun owns_update, hnone] at hx hx'
    have hold := of_update_eq hx (by simp)
    have hold' := of_update_eq hx' (by simp)
    exact h.unique x x' j u hold hold'
  · intro j hj
    have hji : j ≠ i := by
      rintro rfl
      rw [Function.update_self, hfree] at hj
      cases hj
    rw [Function.update_of_ne hji] at hj ⊢
    obtain ⟨x, hx⟩ := h.owner j hj
    have hxt : x ≠ t := by
      rintro rfl
      rw [howns] at hx
      cases hx
      exact hji rfl
    exact ⟨x, by rw [Function.update_of_ne hxt, hx]⟩

end Owners

theorem Owners.step {a : Label ι E} (h : Owners cfg s.slot s.pc)
    (hs : step cfg s a = some s') : Owners cfg s'.slot s'.pc := by
  cases step_cases hs with
  | tryPush hpc | refuse hpc _ | loadTail hpc _ | casHead hpc _ | casFails hpc _ | waitEmpty hpc
    | seeEmpty hpc | store hpc | wasSize hpc _ | sizeTail hpc | pop hpc _ | waitStored hpc
    | seeStored hpc | load hpc => exact h.keep (by rw [hpc]; rfl) (by simp [Pc.isWorker])
  | claimEmpty hpc hempty =>
    exact h.claim (by rw [hempty]; rfl) (by rw [hpc]; rfl) rfl (by simp [Pc.isWorker])
  | claimStored hpc hstored =>
    exact h.claim (by rw [hstored]; rfl) (by rw [hpc]; rfl) rfl (by simp [Pc.isWorker])
  | publish hpc => exact h.free (by rw [hpc]; rfl) rfl rfl (by simp [Pc.isWorker])
  | release hpc => exact h.free (by rw [hpc]; rfl) rfl rfl (by simp [Pc.isWorker])
  | spinEmpty | spinStored => exact h

omit [DecidableEq ι] in
theorem owners_newState [Inhabited E] :
    Owners cfg (newState : State ι E).slot (newState : State ι E).pc where
  worker t ht := by cases ht
  held t i v ht := by cases ht
  unique t t' i v ht := by cases ht
  owner i hi := by cases hi

theorem owners_of_reachable [Inhabited E] (h : (machine cfg).Reachable s) :
    Owners cfg s.slot s.pc := by
  apply h.invariant (I := fun s => Owners cfg s.slot s.pc)
  · rintro s rfl
    exact owners_newState
  · intro s a s' _ hI hs
    exact hI.step hs

/-- The element that a thread is about to touch. -/
def Pc.touches (cfg : Config ι) : Pc E → Option Word
  | .store _ ticket | .load ticket => some (cfg.slot ticket)
  | _ => none

/-- At most one thread works in a slot, so no two threads ever touch the same
element, and the state of the slot says what is done to it. -/
theorem element_exclusive [Inhabited E] (cfg : Config ι) (s : State ι E)
    (h : (machine cfg).Reachable s) (t t' : ι) (i : Word) (v : SlotState)
    (ht : (s.pc t).touches cfg = some i) (ht' : (s.pc t').owns cfg = some (i, v)) :
    t = t' ∧ s.slot i = v ∧ v.busy = true := by
  have howners := owners_of_reachable h
  have hslot : s.slot i = v := howners.held t' i v ht'
  have howns : (s.pc t).owns cfg = some (i, s.slot i) := by
    unfold Pc.touches at ht
    split at ht
    · next e ticket hpc =>
      cases ht
      rw [hpc, howners.held t _ .storing (by rw [hpc]; rfl)]
      rfl
    · next ticket hpc =>
      cases ht
      rw [hpc, howners.held t _ .loading (by rw [hpc]; rfl)]
      rfl
    · cases ht
  rw [hslot] at howns
  exact ⟨howners.unique t t' i v howns ht', hslot, busy_of_owns ht'⟩

/-- The submitter is about to write its element. -/
theorem element_exclusive_store : ∃ s : State Bool Nat, (machine oneSubmitter).Reachable s ∧
    s.slot (oneSubmitter.slot 0) = .storing := by
  have hrun : ((machine oneSubmitter).run newState (twoHandles.take 4)).map (fun s =>
      decide ((s.pc true).touches oneSubmitter = some (oneSubmitter.slot 0) ∧
        (s.pc true).owns oneSubmitter = some (oneSubmitter.slot 0, .storing))) = some true := by
    decide
  obtain ⟨s, hr, htest⟩ := Machine.reachable_of_run rfl hrun
  obtain ⟨ht, ht'⟩ := of_decide_eq_true htest
  exact ⟨s, hr, (element_exclusive oneSubmitter s hr true true _ _ ht ht').2.1⟩

/-! ## What is in the queue -/

/-- The element that a thread has in its hands. -/
def Pc.inHand (cfg : Config ι) (elem : Word → E) : Pc E → Option E
  | .claimEmpty e _ | .seeEmpty e _ | .store e _ | .release e _ => some e
  | .publish ticket | .load ticket => some (elem (cfg.slot ticket))
  | _ => none

/-- What is in the hands of the threads, and in the slots. -/
def State.hold (cfg : Config ι) (s : State ι E) : ι ⊕ Word → Option E
  | .inl t => (s.pc t).inHand cfg s.elem
  | .inr i => if s.slot i = .stored then some (s.elem i) else none

/-- The elements for which `try_push` gets a ticket. -/
def accepted (s : State ι E) : Label ι E → List E
  | .casHead t false =>
    match s.pc t with
    | .casHead e head => if word s.head = word head then [e] else []
    | _ => []
  | _ => []

/-- The elements that `pop` returns. -/
def returned (cfg : Config ι) (s : State ι E) : Label ι E → List E
  | .release =>
    match s.pc cfg.worker with
    | .release e _ => [e]
    | _ => []
  | _ => []

omit [DecidableEq ι] in
theorem accepted_casHead {t : ι} {e : E} {head : Nat} (hpc : s.pc t = .casHead e head)
    (hword : word s.head = word head) : accepted s (.casHead t false) = [e] := by
  simp [accepted, hpc, hword]

omit [DecidableEq ι] in
theorem accepted_casFails {t : ι} {e : E} {head : Nat} {spurious : Bool}
    (hpc : s.pc t = .casHead e head) (hfail : ¬ (word s.head = word head ∧ spurious = false)) :
    accepted s (.casHead t spurious) = [] := by
  cases spurious with
  | true => rfl
  | false =>
    simp only [and_true] at hfail
    simp [accepted, hpc, hfail]

theorem hold_goto (t : ι) (p : Pc E) :
    (s.goto t p).hold cfg = Function.update (s.hold cfg) (.inl t) (p.inHand cfg s.elem) := by
  funext x
  cases x with
  | inl x =>
    by_cases hx : x = t
    · subst hx
      simp [State.hold, State.goto]
    · rw [Function.update_of_ne (by simpa using hx)]
      simp [State.hold, State.goto, hx]
  | inr i =>
    rw [Function.update_of_ne (by simp)]
    rfl

theorem hold_setSlot (i : Word) (v : SlotState) :
    (s.setSlot i v).hold cfg = Function.update (s.hold cfg) (.inr i)
      (if v = .stored then some (s.elem i) else none) := by
  funext x
  cases x with
  | inl x =>
    rw [Function.update_of_ne (by simp)]
    rfl
  | inr j =>
    by_cases hj : j = i
    · subst hj
      simp [State.hold, State.setSlot]
    · rw [Function.update_of_ne (by simpa using hj)]
      simp [State.hold, State.setSlot, hj]

/-- A thread that has the same element in its hands as before. -/
theorem hold_goto_eq {t : ι} {p : Pc E} (h : p.inHand cfg s.elem = (s.pc t).inHand cfg s.elem) :
    (s.goto t p).hold cfg = s.hold cfg := by
  rw [hold_goto, h]
  exact Function.update_eq_self (.inl t) (s.hold cfg)

/-- The owner of a slot writes the element, which nobody else has. -/
theorem hold_setElem {t : ι} {e : E} {ticket : Nat} (h : Owners cfg s.slot s.pc)
    (hpc : s.pc t = .store e ticket) :
    ((s.setElem (cfg.slot ticket) e).goto t (.publish ticket)).hold cfg = s.hold cfg := by
  have howns : (s.pc t).owns cfg = some (cfg.slot ticket, .storing) := by rw [hpc]; rfl
  have hslot := h.held t _ _ howns
  funext x
  cases x with
  | inl x =>
    by_cases hx : x = t
    · subst hx
      simp [State.hold, State.goto, State.setElem, Pc.inHand, hpc]
    · show (Function.update s.pc t _ x).inHand cfg _ = (s.pc x).inHand cfg s.elem
      rw [Function.update_of_ne hx]
      -- Another thread that has an element of the array works in another slot.
      cases hpx : s.pc x with
      | publish ticket' | load ticket' =>
        have hne : cfg.slot ticket' ≠ cfg.slot ticket :=
          h.slot_ne hx (by rw [hpx]; rfl) howns
        exact congrArg some (Function.update_of_ne hne ..)
      | _ => rfl
  | inr j =>
    by_cases hj : j = cfg.slot ticket
    · subst hj
      simp [State.hold, State.goto, State.setElem, hslot]
    · simp [State.hold, State.goto, State.setElem, hj]

/-- What a step takes in, what it gives out, and what is there afterwards. -/
theorem contents_step {a : Label ι E} {xs : List E} (h : Owners cfg s.slot s.pc)
    (hc : Contents (s.hold cfg) xs) (hs : step cfg s a = some s') :
    ∃ ys, Contents (s'.hold cfg) ys ∧ (xs ++ accepted s a).Perm (returned cfg s a ++ ys) := by
  have hkeep : s'.hold cfg = s.hold cfg → accepted s a = [] → returned cfg s a = [] →
      ∃ ys, Contents (s'.hold cfg) ys ∧ (xs ++ accepted s a).Perm (returned cfg s a ++ ys) := by
    intro hsame hacc hret
    refine ⟨xs, hsame ▸ hc, ?_⟩
    rw [hacc, hret, List.append_nil, List.nil_append]
  have hgoto : ∀ t p, s' = s.goto t p → p.inHand cfg s.elem = (s.pc t).inHand cfg s.elem →
      s'.hold cfg = s.hold cfg := by
    rintro t p rfl hp
    exact hold_goto_eq hp
  cases step_cases hs with
  | tryPush hpc | refuse hpc _ | loadTail hpc _ | seeEmpty hpc | wasSize hpc _
    | seeStored hpc | waitEmpty hpc | waitStored hpc =>
    exact hkeep (hgoto _ _ rfl (by rw [hpc]; rfl)) rfl rfl
  | casFails hpc hfail =>
    exact hkeep (hgoto _ _ rfl (by rw [hpc]; rfl)) (accepted_casFails hpc hfail) rfl
  | sizeTail hpc | pop hpc _ =>
    apply hkeep _ rfl rfl
    rw [hold_goto]
    apply Function.update_eq_self_iff.mpr
    show _ = (s.pc _).inHand cfg s.elem
    rw [hpc]
    rfl
  | load hpc => exact hkeep (hgoto _ _ rfl (by rw [hpc]; rfl)) rfl rfl
  | spinEmpty | spinStored => exact hkeep rfl rfl rfl
  | store hpc => exact hkeep (hold_setElem h hpc) rfl rfl
  | casHead hpc hword =>
    next t e head =>
    have hnone : s.hold cfg (.inl t) = none := by
      show (s.pc t).inHand cfg s.elem = none
      rw [hpc]
      rfl
    refine ⟨e :: xs, ?_, ?_⟩
    · rw [hold_goto]
      exact hc.put hnone e
    · rw [accepted_casHead hpc hword]
      exact List.perm_append_singleton e xs
  | claimEmpty hpc hempty =>
    apply hkeep _ rfl rfl
    next t e ticket =>
    rw [hold_goto_eq (by simp [State.setSlot, hpc, Pc.inHand]), hold_setSlot]
    apply Function.update_eq_self_iff.mpr
    simp [State.hold, hempty]
  | publish hpc =>
    next t ticket =>
    have howns : (s.pc t).owns cfg = some (cfg.slot ticket, .storing) := by rw [hpc]; rfl
    have hslot := h.held t _ _ howns
    refine ⟨xs, ?_, by simp [accepted, returned]⟩
    rw [hold_goto, hold_setSlot]
    rw [Function.update_comm (by simp)]
    apply hc.move
    · show (s.pc t).inHand cfg s.elem = _
      rw [hpc]
      rfl
    · simp [State.hold, hslot]
  | claimStored hpc hstored =>
    next ticket =>
    refine ⟨xs, ?_, by simp [accepted, returned]⟩
    have hin : s.hold cfg (.inr (cfg.slot ticket)) = some (s.elem (cfg.slot ticket)) := by
      simp [State.hold, hstored]
    have hout : s.hold cfg (.inl cfg.worker) = none := by
      show (s.pc cfg.worker).inHand cfg s.elem = none
      rw [hpc]
      rfl
    rw [hold_goto, hold_setSlot]
    exact hc.move hin hout
  | release hpc =>
    next e ticket =>
    have howns : (s.pc cfg.worker).owns cfg = some (cfg.slot ticket, .loading) := by rw [hpc]; rfl
    have hslot := h.held _ _ _ howns
    have hhand : s.hold cfg (.inl cfg.worker) = some e := by
      show (s.pc cfg.worker).inHand cfg s.elem = some e
      rw [hpc]
      rfl
    obtain ⟨ys, hys, hperm⟩ := hc.take hhand
    refine ⟨ys, ?_, ?_⟩
    · have hout : (s.setSlot (cfg.slot ticket) .empty).hold cfg = s.hold cfg := by
        rw [hold_setSlot]
        apply Function.update_eq_self_iff.mpr
        simp [State.hold, hslot]
      rw [hold_goto, hout]
      exact hys
    · have hret : returned cfg s (.release : Label ι E) = [e] := by simp [returned, hpc]
      rw [hret]
      simpa [accepted] using hperm

/-- Nothing is lost and nothing comes twice.  The handles that got a ticket
are those that `pop` has returned and those that one thread has in its hands or
one slot holds, however the threads take turns. -/
theorem nothing_lost [Inhabited E] (cfg : Config ι) (s : State ι E) (as : List (Label ι E))
    (hrun : (machine cfg).run newState as = some s) :
    ∃ rest, Contents (s.hold cfg) rest ∧
      ((machine cfg).shown accepted newState as).Perm
        ((machine cfg).shown (returned cfg) newState as ++ rest) := by
  have hstart : (machine cfg).Reachable (newState : State ι E) := .init rfl
  have hempty : Contents ((newState : State ι E).hold cfg) [] := by
    apply Contents.init
    intro x
    cases x <;> rfl
  apply Machine.conserve (C := fun s xs => Contents (s.hold cfg) xs) _ hstart hempty hrun
  intro s a s' xs hr hc hs
  exact contents_step (owners_of_reachable hr) hc hs

/-- One handle has been returned, and the other one is with the submitter. -/
theorem nothing_lost_two : ∃ (s : State Bool Nat) (rest : List Nat),
    (machine oneSubmitter).run newState twoHandles = some s ∧
      Contents (s.hold oneSubmitter) rest ∧ [7, 8].Perm ([7] ++ rest) := by
  have hsome : ((machine oneSubmitter).run newState twoHandles).isSome = true := by decide
  obtain ⟨s, hrun⟩ := Option.isSome_iff_exists.mp hsome
  obtain ⟨rest, hrest, hperm⟩ := nothing_lost oneSubmitter s twoHandles hrun
  exact ⟨s, rest, hrun, hrest, hperm⟩

end SheepCoro.TaskQueue
