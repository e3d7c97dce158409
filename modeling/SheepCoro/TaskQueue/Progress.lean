import SheepCoro.Lib.Tickets
import SheepCoro.Lib.Count
import SheepCoro.TaskQueue.Tickets

/-!
# No call gets stuck

A push that has a ticket waits until the slot is `EMPTY`, and a pop until it
is `STORED`.  Two pushes may have tickets for the same slot, a lap apart, and
then the one that comes first goes first, whichever ticket it has.

`Counts` counts the tickets of each slot: those that pushes have claimed it
with, and those that pops have claimed it with, differ by one if there is
something in the slot, and not at all otherwise.  Together with the bounds on
the tickets this shows that of the threads that wait for a slot one can go on
(`exists_ready`), and so that the calls which have a ticket can always be
brought to their end (`calls_finish`).
-/

namespace SheepCoro.TaskQueue

open Lib

variable {ι E : Type} [DecidableEq ι] {cfg : Config ι} {s s' : State ι E}

/-! ## Tickets and claims -/

/-- The ticket of a push that has not claimed its slot. -/
def Pc.pending : Pc E → Option Nat
  | .claimEmpty _ ticket | .seeEmpty _ ticket => some ticket
  | _ => none

/-- The ticket of a pop. -/
def Pc.popping : Pc E → Option Nat
  | .claimStored ticket | .seeStored ticket | .load ticket | .release _ ticket => some ticket
  | _ => none

/-- The pops that have a ticket and have not claimed their slot. -/
def Pc.unserved : Pc E → Nat
  | .claimStored _ | .seeStored _ => 1
  | _ => 0

/-- The tickets with which pops have claimed a slot are those below. -/
def State.taken (cfg : Config ι) (s : State ι E) : Nat :=
  s.tail - (s.pc cfg.worker).unserved

/-- A push with the ticket waits for its slot. -/
def Pending (pc : ι → Pc E) (ticket : Nat) : Prop :=
  ∃ t, (pc t).pending = some ticket

/-- There is something in the slot, or about to be. -/
def SlotState.filled : SlotState → Nat
  | .storing | .stored => 1
  | .empty | .loading => 0

open Classical in
/-- How many of the first `n` tickets have claimed the slot `i` for a push. -/
noncomputable def claimed (cfg : Config ι) (pc : ι → Pc E) (i : Word) (n : Nat) : Nat :=
  Nat.count (fun h => cfg.slot h = i ∧ ¬ Pending pc h) n

/-- How many of the first `n` tickets are tickets of the slot `i`. -/
def laps (cfg : Config ι) (i : Word) (n : Nat) : Nat :=
  Nat.count (fun h => cfg.slot h = i) n

structure Counts (cfg : Config ι) (s : State ι E) : Prop where
  ticket : ∀ t h, (s.pc t).pending = some h → h < s.head
  alone : ∀ t t' h, (s.pc t).pending = some h → (s.pc t').pending = some h → t = t'
  last : ∀ h, (s.pc cfg.worker).popping = some h → h + 1 = s.tail
  count : ∀ i, claimed cfg s.pc i s.head = laps cfg i (s.taken cfg) + (s.slot i).filled

section Claims

variable {pc : ι → Pc E} {t : ι} {p : Pc E} {h n : Nat} {i : Word}

theorem pending_update : (fun x => (Function.update pc t p x).pending) =
    Function.update (fun x => (pc x).pending) t p.pending := by
  funext x
  exact Function.apply_update (fun _ q => Pc.pending q) pc t p x

theorem pending_update_iff : Pending (Function.update pc t p) h ↔
    p.pending = some h ∨ ∃ x, x ≠ t ∧ (pc x).pending = some h := by
  constructor
  · rintro ⟨x, hx⟩
    rcases update_eq_iff.mp ((congrFun pending_update x).symm.trans hx) with
      ⟨_, hnew⟩ | ⟨hne, hold⟩
    · exact .inl hnew
    · exact .inr ⟨x, hne, hold⟩
  · rintro (hnew | ⟨x, hne, hold⟩)
    · exact ⟨t, by rwa [Function.update_self]⟩
    · exact ⟨x, by rwa [Function.update_of_ne hne]⟩

/-- A thread that keeps its ticket, or that has none before and after. -/
theorem pending_keep (hsame : p.pending = (pc t).pending) :
    Pending (Function.update pc t p) h ↔ Pending pc h := by
  rw [pending_update_iff, hsame]
  constructor
  · rintro (hnew | ⟨x, _, hold⟩)
    · exact ⟨t, hnew⟩
    · exact ⟨x, hold⟩
  · rintro ⟨x, hx⟩
    by_cases hxt : x = t
    · exact .inl (hxt ▸ hx)
    · exact .inr ⟨x, hxt, hx⟩

omit [DecidableEq ι] in
theorem claimed_congr {pc' : ι → Pc E} (hsame : ∀ h < n, Pending pc' h ↔ Pending pc h) :
    claimed cfg pc' i n = claimed cfg pc i n := by
  classical
  unfold claimed
  apply count_congr
  intro h hh
  rw [hsame h hh]

end Claims

section Updates

variable {t : ι} {p : Pc E} {tail left : Nat} {elem : Word → E} {slot : Word → SlotState}

theorem unserved_of_not_popping (h : p.popping = none) : p.unserved = 0 := by
  unfold Pc.popping at h
  split at h
  · cases h
  · cases h
  · cases h
  · cases h
  · next hclaim hsee _ _ =>
    unfold Pc.unserved
    split
    · exact absurd rfl (hclaim _)
    · exact absurd rfl (hsee _)
    · rfl

theorem filled_update {j : Word} {v : SlotState} (h : v.filled = (slot j).filled) (i : Word) :
    (Function.update slot j v i).filled = (slot i).filled := by
  by_cases hi : i = j
  · subst hi
    rw [Function.update_self, h]
  · rw [Function.update_of_ne hi]

/-- A thread moves and keeps what counts. -/
theorem Counts.keep (h : Counts cfg s) (hpend : p.pending = (s.pc t).pending)
    (hslot : ∀ i, (slot i).filled = (s.slot i).filled)
    (htaken : tail - (Function.update s.pc t p cfg.worker).unserved = s.taken cfg)
    (hlast : ∀ n, (Function.update s.pc t p cfg.worker).popping = some n → n + 1 = tail) :
    Counts cfg { head := s.head, tail, slot, elem, pc := Function.update s.pc t p, left } where
  ticket := by
    intro x n hx
    obtain ⟨y, hy⟩ := (pending_keep hpend).mp ⟨x, hx⟩
    exact h.ticket y n hy
  alone := by
    have hsame : ∀ x, (Function.update s.pc t p x).pending = (s.pc x).pending := by
      intro x
      rw [congrFun pending_update x, hpend, Function.update_eq_self t fun x => (s.pc x).pending]
    intro x y n hx hy
    exact h.alone x y n ((hsame x).symm.trans hx) ((hsame y).symm.trans hy)
  last := hlast
  count := by
    intro i
    show claimed cfg (Function.update s.pc t p) i s.head =
      laps cfg i (tail - (Function.update s.pc t p cfg.worker).unserved) + (slot i).filled
    rw [claimed_congr fun _ _ => pending_keep hpend, htaken, hslot]
    exact h.count i

/-- What the worker is doing in a `pop` does not change when a thread outside
of `pop` moves. -/
theorem popping_update (cfg : Config ι) (hold : (s.pc t).popping = none) (hnew : p.popping = none) :
    (Function.update s.pc t p cfg.worker).popping = (s.pc cfg.worker).popping ∧
      (Function.update s.pc t p cfg.worker).unserved = (s.pc cfg.worker).unserved := by
  by_cases ht : cfg.worker = t
  · rw [ht, Function.update_self, hold, hnew, unserved_of_not_popping hold,
      unserved_of_not_popping hnew]
    exact ⟨rfl, rfl⟩
  · rw [Function.update_of_ne ht]
    exact ⟨rfl, rfl⟩

/-- A thread outside of `pop` moves. -/
theorem Counts.outside (h : Counts cfg s) (hpend : p.pending = (s.pc t).pending)
    (hslot : ∀ i, (slot i).filled = (s.slot i).filled) (hold : (s.pc t).popping = none)
    (hnew : p.popping = none) :
    Counts cfg { s with slot, elem, left, pc := Function.update s.pc t p } := by
  obtain ⟨hpop, huns⟩ := popping_update cfg hold hnew
  apply h.keep hpend hslot
  · rw [huns]
    rfl
  · intro n hn
    exact h.last n (hpop ▸ hn)

/-- The tickets that wait after a push got one. -/
theorem pending_accept (hnone : (s.pc t).pending = none) (e : E) (n : Nat) :
    Pending (Function.update s.pc t (.claimEmpty e s.head)) n ↔ n = s.head ∨ Pending s.pc n := by
  rw [pending_update_iff]
  constructor
  · rintro (hnew | ⟨x, _, hx⟩)
    · exact .inl (Option.some.inj hnew).symm
    · exact .inr ⟨x, hx⟩
  · rintro (rfl | ⟨x, hx⟩)
    · exact .inl rfl
    · refine .inr ⟨x, ?_, hx⟩
      rintro rfl
      rw [hnone] at hx
      cases hx

/-- The tickets that wait after a push has claimed its slot. -/
theorem Counts.pending_claim {e : E} {ticket : Nat} (h : Counts cfg s)
    (hpc : s.pc t = .claimEmpty e ticket) (n : Nat) :
    Pending (Function.update s.pc t (.store e ticket)) n ↔ Pending s.pc n ∧ n ≠ ticket := by
  have hticket : (s.pc t).pending = some ticket := by rw [hpc]; rfl
  rw [pending_update_iff]
  constructor
  · rintro (hnew | ⟨x, hne, hx⟩)
    · cases hnew
    · refine ⟨⟨x, hx⟩, ?_⟩
      rintro rfl
      exact hne (h.alone x t n hx hticket)
  · rintro ⟨⟨x, hx⟩, hne⟩
    refine .inr ⟨x, ?_, hx⟩
    rintro rfl
    exact hne (Option.some.inj (hx.symm.trans hticket))

/-- A push gets the next ticket. -/
theorem Counts.accept {e : E} (h : Counts cfg s) (hold : (s.pc t).popping = none)
    (hnone : (s.pc t).pending = none) :
    Counts cfg ({ s with head := s.head + 1 }.goto t (.claimEmpty e s.head)) := by
  obtain ⟨hpop, huns⟩ := popping_update cfg (p := .claimEmpty e s.head) hold rfl
  have hiff := pending_accept hnone e
  have hbelow : ∀ x n, (s.pc x).pending = some n → n ≠ s.head :=
    fun x n hx => Nat.ne_of_lt (h.ticket x n hx)
  constructor
  · intro x n hx
    show n < s.head + 1
    rcases (hiff n).mp ⟨x, hx⟩ with rfl | ⟨y, hy⟩
    · exact Nat.lt_succ_self _
    · exact Nat.lt_succ_of_lt (h.ticket y n hy)
  · intro x y n hx hy
    rcases update_eq_iff.mp ((congrFun pending_update x).symm.trans hx) with
      ⟨hxt, hnew⟩ | ⟨_, hx'⟩ <;>
    rcases update_eq_iff.mp ((congrFun pending_update y).symm.trans hy) with
      ⟨hyt, hnew'⟩ | ⟨_, hy'⟩
    · exact hxt.trans hyt.symm
    · exact absurd (Option.some.inj hnew).symm (hbelow y n hy')
    · exact absurd (Option.some.inj hnew').symm (hbelow x n hx')
    · exact h.alone x y n hx' hy'
  · intro n hn
    exact h.last n (hpop ▸ hn)
  · intro i
    show claimed cfg (Function.update s.pc t (.claimEmpty e s.head)) i (s.head + 1) =
      laps cfg i (s.tail - (Function.update s.pc t (.claimEmpty e s.head) cfg.worker).unserved) +
        (s.slot i).filled
    have hnew : ¬ (cfg.slot s.head = i ∧
        ¬ Pending (Function.update s.pc t (.claimEmpty e s.head)) s.head) :=
      fun hnot => hnot.2 ((hiff _).mpr (.inl rfl))
    have hsame : claimed cfg (Function.update s.pc t (.claimEmpty e s.head)) i s.head =
        claimed cfg s.pc i s.head := by
      apply claimed_congr
      intro n hn
      rw [hiff n]
      have hne : n ≠ s.head := Nat.ne_of_lt hn
      simp [hne]
    rw [huns, claimed, Nat.count_succ, if_neg hnew, Nat.add_zero]
    exact hsame.trans (h.count i)

/-- A push claims its slot. -/
theorem Counts.claim {e : E} {ticket : Nat} (h : Counts cfg s)
    (hpc : s.pc t = .claimEmpty e ticket) (hempty : s.slot (cfg.slot ticket) = .empty) :
    Counts cfg ((s.setSlot (cfg.slot ticket) .storing).goto t (.store e ticket)) := by
  classical
  have hticket : (s.pc t).pending = some ticket := by rw [hpc]; rfl
  obtain ⟨hpop, huns⟩ := popping_update cfg (p := .store e ticket)
    (show (s.pc t).popping = none by rw [hpc]; rfl) rfl
  have hother : ∀ x n, (Function.update s.pc t (.store e ticket) x).pending = some n →
      x ≠ t ∧ (s.pc x).pending = some n := by
    intro x n hx
    rcases update_eq_iff.mp ((congrFun pending_update x).symm.trans hx) with
      ⟨_, hnew⟩ | ⟨hne, hx'⟩
    · cases hnew
    · exact ⟨hne, hx'⟩
  have hiff : ∀ n, ¬ Pending (Function.update s.pc t (.store e ticket)) n ↔
      ¬ Pending s.pc n ∨ n = ticket := by
    intro n
    rw [h.pending_claim hpc, not_and_or, not_not]
  constructor
  · intro x n hx
    exact h.ticket x n (hother x n hx).2
  · intro x y n hx hy
    exact h.alone x y n (hother x n hx).2 (hother y n hy).2
  · intro n hn
    exact h.last n (hpop ▸ hn)
  · intro i
    show claimed cfg (Function.update s.pc t (.store e ticket)) i s.head =
      laps cfg i (s.tail - (Function.update s.pc t (.store e ticket) cfg.worker).unserved) +
        (Function.update s.slot (cfg.slot ticket) .storing i).filled
    have hcount := h.count i
    rw [huns]
    by_cases hi : i = cfg.slot ticket
    · -- The ticket counts among those that have claimed this slot from now on.
      subst hi
      have hmore : claimed cfg (Function.update s.pc t (.store e ticket)) (cfg.slot ticket)
          s.head = claimed cfg s.pc (cfg.slot ticket) s.head + 1 := by
        unfold claimed
        refine count_switch (k := ticket) ?_ ?_ (h.ticket t ticket hticket)
        · rintro ⟨_, hnot⟩
          exact hnot ⟨t, hticket⟩
        · intro n
          rw [hiff n]
          constructor
          · rintro ⟨hslot, hnot | hn⟩
            · exact .inl ⟨hslot, hnot⟩
            · exact .inr hn
          · rintro (⟨hslot, hnot⟩ | rfl)
            · exact ⟨hslot, .inl hnot⟩
            · exact ⟨rfl, .inr rfl⟩
      rw [hmore, hcount, Function.update_self, hempty]
      rfl
    · have hsame : claimed cfg (Function.update s.pc t (.store e ticket)) i s.head =
          claimed cfg s.pc i s.head := by
        unfold claimed
        apply count_congr
        intro n _
        rw [hiff n]
        constructor
        · rintro ⟨hslot, hnot | rfl⟩
          · exact ⟨hslot, hnot⟩
          · exact absurd hslot.symm hi
        · rintro ⟨hslot, hnot⟩
          exact ⟨hslot, .inl hnot⟩
      rw [hsame, hcount, Function.update_of_ne hi]
      rfl

/-- The worker claims the slot of its ticket. -/
theorem Counts.serve {ticket : Nat} (h : Counts cfg s)
    (hpc : s.pc cfg.worker = .claimStored ticket)
    (hstored : s.slot (cfg.slot ticket) = .stored) :
    Counts cfg ((s.setSlot (cfg.slot ticket) .loading).goto cfg.worker (.load ticket)) := by
  have hlast : ticket + 1 = s.tail := h.last ticket (by rw [hpc]; rfl)
  have htaken : s.taken cfg = ticket := by
    unfold State.taken
    rw [hpc]
    show s.tail - 1 = ticket
    omega
  have hsame : ∀ n, Pending (Function.update s.pc cfg.worker (.load ticket)) n ↔
      Pending s.pc n := fun n => pending_keep (by rw [hpc]; rfl)
  constructor
  · intro x n hx
    obtain ⟨y, hy⟩ := (hsame n).mp ⟨x, hx⟩
    exact h.ticket y n hy
  · have hpend : ∀ x, (Function.update s.pc cfg.worker (.load ticket) x).pending =
        (s.pc x).pending := by
      intro x
      by_cases hx : x = cfg.worker
      · rw [hx, Function.update_self, hpc]
        rfl
      · rw [Function.update_of_ne hx]
    intro x y n hx hy
    exact h.alone x y n ((hpend x).symm.trans hx) ((hpend y).symm.trans hy)
  · intro n hn
    have hn' : (Pc.load ticket : Pc E).popping = some n := by
      simpa [State.goto, State.setSlot] using hn
    cases hn'
    exact hlast
  · intro i
    show claimed cfg (Function.update s.pc cfg.worker (.load ticket)) i s.head =
      laps cfg i (s.tail - (Function.update s.pc cfg.worker (.load ticket) cfg.worker).unserved) +
        (Function.update s.slot (cfg.slot ticket) .loading i).filled
    have hcount := h.count i
    rw [claimed_congr fun n _ => hsame n, hcount, htaken, Function.update_self]
    show laps cfg i ticket + _ = laps cfg i (s.tail - 0) + _
    rw [Nat.sub_zero, ← hlast]
    unfold laps
    rw [Nat.count_succ]
    by_cases hi : i = cfg.slot ticket
    · subst hi
      rw [Function.update_self, if_pos rfl, hstored]
      rfl
    · rw [Function.update_of_ne hi, if_neg (Ne.symm hi)]
      rfl

end Updates

theorem Counts.step {a : Label ι E} (ho : Owners cfg s.slot s.pc) (h : Counts cfg s)
    (hs : step cfg s a = some s') : Counts cfg s' := by
  have hself : ∀ i, (s.slot i).filled = (s.slot i).filled := fun _ => rfl
  cases step_cases hs with
  | tryPush hpc | refuse hpc _ | loadTail hpc _ | casFails hpc _ | waitEmpty hpc | seeEmpty hpc
    | store hpc | wasSize hpc _ | sizeTail hpc =>
    exact h.outside (by simp [hpc, Pc.pending]) hself (by simp [hpc, Pc.popping]) rfl
  | casHead hpc _ => exact h.accept (by simp [hpc, Pc.popping]) (by simp [hpc, Pc.pending])
  | claimEmpty hpc hempty => exact h.claim hpc hempty
  | publish hpc =>
    have hslot := ho.held _ _ _ (show _ = some (_, SlotState.storing) by rw [hpc]; rfl)
    apply h.outside (by rw [hpc]; rfl) _ (by rw [hpc]; rfl) rfl
    exact filled_update (by rw [hslot]; rfl)
  | pop hpc hleft =>
    apply h.keep (by rw [hpc]; rfl) hself
    · rw [Function.update_self]
      unfold State.taken
      rw [hpc]
      rfl
    · intro n hn
      rw [Function.update_self] at hn
      cases hn
      rfl
  | claimStored hpc hstored => exact h.serve hpc hstored
  | waitStored hpc | seeStored hpc | load hpc =>
    have hlast := h.last _ (show _ = some _ by rw [hpc]; rfl)
    apply h.keep (by rw [hpc]; rfl) hself
    · rw [Function.update_self]
      unfold State.taken
      rw [hpc]
      rfl
    · intro n hn
      rw [Function.update_self] at hn
      cases hn
      exact hlast
  | release hpc =>
    have hslot := ho.held _ _ _ (show _ = some (_, SlotState.loading) by rw [hpc]; rfl)
    apply h.keep (by rw [hpc]; rfl) (filled_update (by rw [hslot]; rfl))
    · rw [Function.update_self]
      unfold State.taken
      rw [hpc]
      rfl
    · intro n hn
      rw [Function.update_self] at hn
      cases hn
  | spinEmpty | spinStored => exact h

omit [DecidableEq ι] in
theorem counts_newState [Inhabited E] : Counts cfg (newState : State ι E) where
  ticket t h ht := by cases ht
  alone t t' h ht := by cases ht
  last h hh := by cases hh
  count i := by
    show claimed cfg _ i 0 = laps cfg i 0 + 0
    unfold claimed laps
    rw [Nat.count_zero, Nat.count_zero]

theorem counts_of_reachable [Inhabited E] (h : (machine cfg).Reachable s) : Counts cfg s := by
  apply h.invariant (I := fun s => Counts cfg s)
  · rintro s rfl
    exact counts_newState
  · intro s a s' hr hI hs
    exact hI.step (owners_of_reachable hr) hs

/-! ## Some thread can go on -/

/-- The operations that are left of the call of a thread that has a ticket. -/
def Pc.toGo : Pc E → Nat
  | .seeEmpty .. | .seeStored _ => 4
  | .claimEmpty .. | .claimStored _ => 3
  | .store .. | .load _ => 2
  | .publish _ | .release .. => 1
  | _ => 0

/-- The next operation of the thread brings it forward. -/
def Pc.Ready (cfg : Config ι) (slot : Word → SlotState) : Pc E → Prop
  | .claimEmpty _ ticket | .seeEmpty _ ticket => slot (cfg.slot ticket) = .empty
  | .claimStored ticket | .seeStored ticket => slot (cfg.slot ticket) = .stored
  | .store .. | .publish _ | .load _ | .release .. => True
  | _ => False

/-- An operation of `do_push` or `do_pop`. -/
def Label.finishes : Label ι E → Bool
  | .claimEmpty .. | .seeEmpty _ | .store _ | .publish _ | .claimStored _ | .seeStored | .load
    | .release => true
  | _ => false

theorem ready_step {t : ι} (ho : Owners cfg s.slot s.pc) (h : (s.pc t).Ready cfg s.slot) :
    ∃ a s' p, a.finishes = true ∧ step cfg s a = some s' ∧ s'.pc = Function.update s.pc t p ∧
      p.toGo < (s.pc t).toGo := by
  cases hpc : s.pc t with
  | claimEmpty e ticket =>
    rw [hpc] at h
    have hempty : s.slot (cfg.slot ticket) = .empty := h
    exact ⟨.claimEmpty t false, (s.setSlot (cfg.slot ticket) .storing).goto t (.store e ticket),
      .store e ticket, rfl, by simp [step, hpc, hempty], rfl, by simp [Pc.toGo]⟩
  | seeEmpty e ticket =>
    rw [hpc] at h
    have hempty : s.slot (cfg.slot ticket) = .empty := h
    exact ⟨.seeEmpty t, s.goto t (.claimEmpty e ticket), .claimEmpty e ticket, rfl,
      by simp [step, hpc, hempty], rfl, by simp [Pc.toGo]⟩
  | store e ticket =>
    exact ⟨.store t, (s.setElem (cfg.slot ticket) e).goto t (.publish ticket), .publish ticket,
      rfl, by simp [step, hpc], rfl, by simp [Pc.toGo]⟩
  | publish ticket =>
    exact ⟨.publish t, (s.setSlot (cfg.slot ticket) .stored).goto t .out, .out, rfl,
      by simp [step, hpc], rfl, by simp [Pc.toGo]⟩
  | claimStored ticket =>
    obtain rfl := ho.worker t (by rw [hpc]; rfl)
    rw [hpc] at h
    have hstored : s.slot (cfg.slot ticket) = .stored := h
    exact ⟨.claimStored false,
      (s.setSlot (cfg.slot ticket) .loading).goto cfg.worker (.load ticket), .load ticket, rfl,
      by simp [step, hpc, hstored], rfl, by simp [Pc.toGo]⟩
  | seeStored ticket =>
    obtain rfl := ho.worker t (by rw [hpc]; rfl)
    rw [hpc] at h
    have hstored : s.slot (cfg.slot ticket) = .stored := h
    exact ⟨.seeStored, s.goto cfg.worker (.claimStored ticket), .claimStored ticket, rfl,
      by simp [step, hpc, hstored], rfl, by simp [Pc.toGo]⟩
  | load ticket =>
    obtain rfl := ho.worker t (by rw [hpc]; rfl)
    exact ⟨.load, s.goto cfg.worker (.release (s.elem (cfg.slot ticket)) ticket),
      .release (s.elem (cfg.slot ticket)) ticket, rfl, by simp [step, hpc], rfl,
      by simp [Pc.toGo]⟩
  | release e ticket =>
    obtain rfl := ho.worker t (by rw [hpc]; rfl)
    exact ⟨.release, (s.setSlot (cfg.slot ticket) .empty).goto cfg.worker .out, .out, rfl,
      by simp [step, hpc], rfl, by simp [Pc.toGo]⟩
  | out | loadTail | casHead | sizeTail =>
    rw [hpc] at h
    exact h.elim

section

omit [DecidableEq ι]

/-- Tickets that are less than a lap apart have different slots. -/
theorem Config.Fits.slot_ne (h : cfg.Fits) {m n : Nat} (hlt : m < n)
    (hlap : n < m + cfg.size.toNat) : cfg.slot m ≠ cfg.slot n := by
  obtain ⟨k, _, hk30, hk⟩ := h.exists_size
  rw [hk] at hlap
  intro heq
  have hmod : m ≡ n [MOD 2 ^ k] := (slotOf_eq_iff (by omega) hk m n).mp heq
  have hsame : m = n := by
    apply hmod.eq_of_abs_lt
    rw [abs_lt]
    omega
  omega

/-- Whoever has claimed a slot can go on. -/
theorem owner_ready {i : Word} (ho : Owners cfg s.slot s.pc) (hbusy : (s.slot i).busy = true) :
    ∃ t, (s.pc t).Ready cfg s.slot := by
  obtain ⟨t, ht⟩ := ho.owner i hbusy
  refine ⟨t, ?_⟩
  cases hpc : s.pc t with
  | store | publish | load | release => trivial
  | _ =>
    rw [hpc] at ht
    cases ht

/-- A push that waits shows that not all tickets of the slot have claimed
it. -/
theorem Counts.claimed_lt (h : Counts cfg s) {t : ι} {ticket : Nat}
    (ht : (s.pc t).pending = some ticket) :
    claimed cfg s.pc (cfg.slot ticket) s.head < laps cfg (cfg.slot ticket) s.head := by
  classical
  have hnot : ¬ (cfg.slot ticket = cfg.slot ticket ∧ ¬ Pending s.pc ticket) :=
    fun hboth => hboth.2 ⟨t, ht⟩
  have hone := count_switch hnot (q := fun n => (cfg.slot n = cfg.slot ticket ∧
    ¬ Pending s.pc n) ∨ n = ticket) (fun _ => Iff.rfl) (h.ticket t ticket ht)
  show claimed cfg s.pc (cfg.slot ticket) s.head + 1 ≤ _
  unfold claimed laps
  rw [← hone]
  apply Nat.count_mono_left
  rintro n _ (⟨hslot, _⟩ | rfl)
  · exact hslot
  · rfl

/-- The worker waits for a slot that nobody has claimed: a push does too. -/
theorem push_ready {ticket : Nat} (hb : Bounds cfg s) (hc : Counts cfg s)
    (huns : (s.pc cfg.worker).unserved = 1) (hpop : (s.pc cfg.worker).popping = some ticket)
    (hempty : s.slot (cfg.slot ticket) = .empty) : ∃ t, (s.pc t).Ready cfg s.slot := by
  classical
  have hlast := hc.last ticket hpop
  have hbatch := hb.batch
  have htaken : s.taken cfg = ticket := by
    unfold State.taken
    omega
  have hcount := hc.count (cfg.slot ticket)
  rw [hempty, htaken] at hcount
  have hlaps : laps cfg (cfg.slot ticket) (ticket + 1) =
      laps cfg (cfg.slot ticket) ticket + 1 := by
    unfold laps
    rw [Nat.count_succ, if_pos rfl]
  have hmono : laps cfg (cfg.slot ticket) (ticket + 1) ≤ laps cfg (cfg.slot ticket) s.head :=
    Nat.count_monotone _ (by omega)
  have hless : claimed cfg s.pc (cfg.slot ticket) s.head < laps cfg (cfg.slot ticket) s.head := by
    rw [hcount]
    show laps cfg (cfg.slot ticket) ticket + 0 < _
    omega
  obtain ⟨n, _, hslot, hnot⟩ := exists_of_count_lt hless
  have hpend : Pending s.pc n := by
    by_contra hn
    exact hnot ⟨hslot, hn⟩
  obtain ⟨t, ht⟩ := hpend
  refine ⟨t, ?_⟩
  cases hpc : s.pc t with
  | claimEmpty e n' | seeEmpty e n' =>
    rw [hpc] at ht
    cases ht
    show s.slot (cfg.slot n) = .empty
    rw [hslot, hempty]
  | _ =>
    rw [hpc] at ht
    cases ht

/-- A push waits for a slot in which there is something: the worker waits for
it too. -/
theorem worker_ready {t : ι} {ticket : Nat} (hfits : cfg.Fits) (hb : Bounds cfg s)
    (hc : Counts cfg s) (ht : (s.pc t).pending = some ticket)
    (hstored : s.slot (cfg.slot ticket) = .stored) : (s.pc cfg.worker).Ready cfg s.slot := by
  by_contra hready
  have hroom := hb.room
  have hcount := hc.count (cfg.slot ticket)
  have hless := hc.claimed_lt ht
  rw [hstored] at hcount
  -- The worker has not a ticket of this slot that it has not claimed it with.
  have htail : laps cfg (cfg.slot ticket) s.tail =
      laps cfg (cfg.slot ticket) (s.taken cfg) := by
    unfold State.taken
    cases hpc : s.pc cfg.worker with
    | claimStored n | seeStored n =>
      have hlast := hc.last n (by rw [hpc]; rfl)
      have hne : cfg.slot n ≠ cfg.slot ticket := by
        intro heq
        apply hready
        rw [hpc]
        show s.slot (cfg.slot n) = .stored
        rw [heq, hstored]
      show laps cfg (cfg.slot ticket) s.tail = laps cfg (cfg.slot ticket) (s.tail - 1)
      unfold laps
      rw [← hlast, Nat.count_succ, if_neg hne]
      rfl
    | _ => rfl
  have hmono : laps cfg (cfg.slot ticket) s.head ≤
      laps cfg (cfg.slot ticket) (s.tail + cfg.size.toNat) := Nat.count_monotone _ hroom
  have hlap : laps cfg (cfg.slot ticket) (s.tail + cfg.size.toNat) ≤
      laps cfg (cfg.slot ticket) s.tail + 1 := by
    apply count_lap
    intro x y hx hxy hy hslot hslot'
    exact hfits.slot_ne hxy (by omega) (hslot.trans hslot'.symm)
  have hone : SlotState.stored.filled = 1 := rfl
  omega

/-- Of the threads that have a ticket, one can go on. -/
theorem exists_ready {t : ι} (hfits : cfg.Fits) (ho : Owners cfg s.slot s.pc)
    (hb : Bounds cfg s) (hc : Counts cfg s) (hgo : 0 < (s.pc t).toGo) :
    ∃ t', (s.pc t').Ready cfg s.slot := by
  cases hpc : s.pc t with
  | claimEmpty e ticket | seeEmpty e ticket =>
    cases hslot : s.slot (cfg.slot ticket) with
    | empty => exact ⟨t, by rw [hpc]; exact hslot⟩
    | storing | loading => exact owner_ready ho (by rw [hslot]; rfl)
    | stored => exact ⟨_, worker_ready hfits hb hc (by rw [hpc]; rfl) hslot⟩
  | claimStored ticket | seeStored ticket =>
    obtain rfl := ho.worker t (by rw [hpc]; rfl)
    cases hslot : s.slot (cfg.slot ticket) with
    | empty => exact push_ready hb hc (by rw [hpc]; rfl) (by rw [hpc]; rfl) hslot
    | storing | loading => exact owner_ready ho (by rw [hslot]; rfl)
    | stored => exact ⟨cfg.worker, by rw [hpc]; exact hslot⟩
  | store | publish | load | release => exact ⟨t, by rw [hpc]; trivial⟩
  | out | loadTail | casHead | sizeTail =>
    simp [hpc, Pc.toGo] at hgo

theorem fresh_of_finishes {a : Label ι E} (h : a.finishes = true) : Fresh s a := by
  intro t ht
  cases a with
  | casHead => cases h
  | _ => cases ht

end

/-- The calls that have a ticket can be brought to their end by operations of
these calls alone, in whatever state a run has left them. -/
theorem calls_finish [Inhabited E] [Fintype ι] (cfg : Config ι) (hfits : cfg.Fits)
    (s : State ι E) (h : (machine cfg).ReachableUnder Fresh s) :
    ∃ as s', (∀ a ∈ as, Label.finishes a = true) ∧ (machine cfg).run s as = some s' ∧
      ∀ t, (s'.pc t).toGo = 0 := by
  induction hsum : ∑ t, (s.pc t).toGo using Nat.strong_induction_on generalizing s with
  | _ n ih =>
    subst hsum
    by_cases hdone : ∀ t, (s.pc t).toGo = 0
    · exact ⟨[], s, by simp, rfl, hdone⟩
    · obtain ⟨t, ht⟩ := not_forall.mp hdone
      have ho := owners_of_reachable h.reachable
      obtain ⟨t', hready⟩ := exists_ready hfits ho (bounds_of_reachable hfits h)
        (counts_of_reachable h.reachable) (Nat.pos_of_ne_zero ht)
      obtain ⟨a, u, p, ha, hs, hpc, hless⟩ := ready_step ho hready
      have hsum : ∑ x, (u.pc x).toGo < ∑ x, (s.pc x).toGo := by
        have hone := sum_update Pc.toGo s.pc t' p
        rw [← hpc] at hone
        omega
      obtain ⟨as, s', has, hrun, hend⟩ :=
        ih _ hsum u (h.step (fresh_of_finishes ha) hs) rfl
      refine ⟨a :: as, s', ?_, Machine.run_cons.mpr ⟨u, hs, hrun⟩, hend⟩
      intro b hb
      rcases List.mem_cons.mp hb with rfl | hb
      · exact ha
      · exact has b hb

/-- The worker waits for a handle that the submitter has not stored yet. -/
theorem calls_finish_two : ∃ (s s' : State Bool Nat) (as : List (Label Bool Nat)),
    (s.pc false).toGo = 4 ∧ (machine oneSubmitter).run s as = some s' ∧
      (s'.pc false).toGo = 0 := by
  have htwo : ((machine oneSubmitter).runUnder Fresh newState twoHandles).map
      (fun s => decide ((s.pc false).toGo = 4)) = some true := by decide
  obtain ⟨s, hr, htest⟩ := Machine.reachableUnder_of_run rfl htwo
  obtain ⟨as, s', _, hrun, hend⟩ := calls_finish oneSubmitter (by decide) s hr
  exact ⟨s, s', as, of_decide_eq_true htest, hrun, hend false⟩

end SheepCoro.TaskQueue
