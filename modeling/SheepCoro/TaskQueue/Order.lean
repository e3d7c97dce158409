import SheepCoro.Lib.Fifo
import SheepCoro.TaskQueue.Progress

/-!
# The task queue as a plain queue

The other models of this development take the task queue for a list with room
for `kQueCap` handles: `try_push` appends one unless the list is full, and
`pop` takes the first one.  Here the queue of words, tickets and slots is shown
to be that list (`linearizable`).  A push happens when it gets its ticket, a
refused push when it compares the counters, and a pop when it gets its ticket.

The queue does not promise this for every run (`TOTAL_ORDER` is `false`).
`InOrder` is what it needs: no push claims a slot before another push that is
a lap behind it (`NoLap`), and no thread sleeps through 2^31 tickets between a
load of `head_` and its comparison.

`Ordered` is the invariant.  With these conditions the slots of the tickets
that wait for the worker are claimed in the order of the laps, so the first
one that the worker finds in a slot is the one with its own ticket
(`Ordered.serves`).
-/

namespace SheepCoro.TaskQueue

open Lib

variable {ι E : Type} [DecidableEq ι] {cfg : Config ι} {s s' : State ι E} {acc : List E}

/-! ## The condition -/

/-- The thread that claims a slot for a push. -/
def Label.claiming : Label ι E → Option ι
  | .claimEmpty t _ => some t
  | _ => none

/-- The thread that compares the counters. -/
def Label.measuring : Label ι E → Option ι
  | .loadTail t => some t
  | _ => none

/-- The number of tickets that a thread is about to compare with `tail_`. -/
def Pc.measures : Pc E → Option Nat
  | .loadTail _ head => some head
  | _ => none

/-- No other push waits for the slot with a ticket that is a lap behind. -/
def NoLap (cfg : Config ι) (s : State ι E) (a : Label ι E) : Prop :=
  ∀ t ∈ a.claiming, ∀ ticket ∈ (s.pc t).pending,
    ∀ t', ∀ n ∈ (s.pc t').pending, n + cfg.size.toNat ≠ ticket

/-- The thread has not slept through half a round of `head_`. -/
def Recent (s : State ι E) (a : Label ι E) : Prop :=
  ∀ t ∈ a.measuring, ∀ head ∈ (s.pc t).measures, s.head < head + 2 ^ 31

def InOrder (cfg : Config ι) (s : State ι E) (a : Label ι E) : Prop :=
  Fresh s a ∧ NoLap cfg s a ∧ Recent s a

instance [Fintype ι] (cfg : Config ι) (s : State ι E) : DecidablePred (InOrder cfg s) := fun a =>
  have : Decidable (NoLap cfg s a) :=
    inferInstanceAs (Decidable (∀ t ∈ a.claiming, ∀ ticket ∈ (s.pc t).pending, _))
  have : Decidable (Recent s a) :=
    inferInstanceAs (Decidable (∀ t ∈ a.measuring, ∀ head ∈ (s.pc t).measures, _))
  inferInstanceAs (Decidable (_ ∧ _ ∧ _))

/-! ## Tickets and elements -/

/-- A ticket, and the element that a thread has for it. -/
def Pc.carries (cfg : Config ι) (elem : Word → E) : Pc E → Option (Nat × E)
  | .claimEmpty e ticket | .seeEmpty e ticket | .store e ticket | .release e ticket =>
    some (ticket, e)
  | .publish ticket | .load ticket => some (ticket, elem (cfg.slot ticket))
  | _ => none

/-- The ticket of a push that has claimed its slot. -/
def Pc.working : Pc E → Option Nat
  | .store _ ticket | .publish ticket => some ticket
  | _ => none

/-- The elements have their tickets, where `acc` is the list of the elements
that got one. -/
structure Ordered (cfg : Config ι) (acc : List E) (s : State ι E) : Prop where
  length : acc.length = s.head
  carried : ∀ t h e, (s.pc t).carries cfg s.elem = some (h, e) → acc[h]? = some e
  stored : ∀ h < s.head, ¬ Pending s.pc h → s.taken cfg ≤ h →
    s.slot (cfg.slot h) = .stored → acc[h]? = some (s.elem (cfg.slot h))
  early : ∀ h, Pending s.pc h → s.taken cfg ≤ h
  lap : ∀ h, h + cfg.size.toNat < s.head → ¬ Pending s.pc (h + cfg.size.toNat) →
    ¬ Pending s.pc h
  working : ∀ t h, (s.pc t).working = some h →
    h < s.head ∧ ¬ Pending s.pc h ∧ s.taken cfg ≤ h

omit [DecidableEq ι] in
theorem owns_of_working {p : Pc E} {n : Nat} (h : p.working = some n) :
    p.owns cfg = some (cfg.slot n, .storing) := by
  unfold Pc.working at h
  split at h <;> cases h <;> rfl

theorem filled_le_one (v : SlotState) : v.filled ≤ 1 := by
  cases v <;> decide

section

omit [DecidableEq ι]

/-- All tickets that the worker is through with have claimed their slot. -/
theorem Ordered.claimed_taken (h : Ordered cfg acc s) (i : Word) :
    claimed cfg s.pc i (s.taken cfg) = laps cfg i (s.taken cfg) := by
  classical
  unfold claimed laps
  apply count_congr
  intro n hn
  have hnot : ¬ Pending s.pc n := by
    intro hpend
    have := h.early n hpend
    omega
  simp [hnot]

/-- Of the tickets that the worker is not through with, at most one has
claimed a slot. -/
theorem Ordered.claimed_unique (h : Ordered cfg acc s) (hc : Counts cfg s) {m n : Nat}
    (hm : s.taken cfg ≤ m) (hmn : m < n) (hn : n < s.head) (hslot : cfg.slot m = cfg.slot n)
    (hmc : ¬ Pending s.pc m) : Pending s.pc n := by
  classical
  by_contra hnc
  have hcount := hc.count (cfg.slot n)
  have hfilled := filled_le_one (s.slot (cfg.slot n))
  have hbelow := h.claimed_taken (cfg.slot n)
  have hfirst : claimed cfg s.pc (cfg.slot n) (s.taken cfg) ≤ claimed cfg s.pc (cfg.slot n) m :=
    Nat.count_monotone _ hm
  have hat : claimed cfg s.pc (cfg.slot n) (m + 1) = claimed cfg s.pc (cfg.slot n) m + 1 := by
    unfold claimed
    rw [Nat.count_succ, if_pos ⟨hslot, hmc⟩]
  have hmid : claimed cfg s.pc (cfg.slot n) (m + 1) ≤ claimed cfg s.pc (cfg.slot n) n :=
    Nat.count_monotone _ hmn
  have hat' : claimed cfg s.pc (cfg.slot n) (n + 1) = claimed cfg s.pc (cfg.slot n) n + 1 := by
    unfold claimed
    rw [Nat.count_succ, if_pos ⟨rfl, hnc⟩]
  have hlast : claimed cfg s.pc (cfg.slot n) (n + 1) ≤ claimed cfg s.pc (cfg.slot n) s.head :=
    Nat.count_monotone _ hn
  omega

/-- A slot in which there is something was claimed by a ticket that the worker
is not through with. -/
theorem Ordered.exists_claimed (h : Ordered cfg acc s) (hc : Counts cfg s)
    (hle : s.taken cfg ≤ s.head) {i : Word} (hstored : s.slot i = .stored) :
    ∃ n < s.head, cfg.slot n = i ∧ ¬ Pending s.pc n ∧ s.taken cfg ≤ n := by
  classical
  by_contra hnone
  have hcount := hc.count i
  have hbelow := h.claimed_taken i
  have hsame : claimed cfg s.pc i (s.taken cfg + (s.head - s.taken cfg)) =
      claimed cfg s.pc i (s.taken cfg) := by
    apply count_none
    rintro n hn hlt ⟨hslot, hnot⟩
    exact hnone ⟨n, by omega, hslot, hnot, hn⟩
  rw [Nat.add_sub_cancel' hle, hcount, hbelow, hstored] at hsame
  have hone : SlotState.stored.filled = 1 := rfl
  omega

/-- A ticket that is some laps behind one that has claimed its slot has
claimed it too. -/
theorem Ordered.behind (h : Ordered cfg acc s) (n j : Nat)
    (hlt : n + j * cfg.size.toNat < s.head) (hnot : ¬ Pending s.pc (n + j * cfg.size.toNat)) :
    ¬ Pending s.pc n := by
  induction j with
  | zero => rwa [Nat.zero_mul, Nat.add_zero] at hnot
  | succ j ih =>
    have hsplit : n + (j + 1) * cfg.size.toNat = n + j * cfg.size.toNat + cfg.size.toNat := by
      rw [Nat.add_mul, Nat.one_mul, Nat.add_assoc]
    rw [hsplit] at hlt hnot
    exact ih (by omega) (h.lap _ hlt hnot)

/-- What the worker finds in the slot of its ticket is the element of its
ticket. -/
theorem Ordered.serves {ticket : Nat} (hfits : cfg.Fits) (h : Ordered cfg acc s)
    (hc : Counts cfg s) (hlt : ticket < s.head) (htaken : s.taken cfg = ticket)
    (hstored : s.slot (cfg.slot ticket) = .stored) :
    ¬ Pending s.pc ticket ∧ acc[ticket]? = some (s.elem (cfg.slot ticket)) := by
  obtain ⟨n, hn, hslot, hnot, hle⟩ := h.exists_claimed hc (by omega) hstored
  obtain ⟨k, _, hk30, hk⟩ := hfits.exists_size
  have hmod : n % 2 ^ k = ticket % 2 ^ k := (slotOf_eq_iff (by omega) hk n ticket).mp hslot
  have hdist : n = ticket + (n - ticket) / 2 ^ k * 2 ^ k := by
    have hdvd : 2 ^ k ∣ n - ticket := (Nat.modEq_iff_dvd' (by omega)).mp hmod.symm
    rw [Nat.div_mul_cancel hdvd]
    omega
  have hclaimed : ¬ Pending s.pc ticket := by
    apply h.behind ticket ((n - ticket) / 2 ^ k)
    · rwa [hk, ← hdist]
    · rwa [hk, ← hdist]
  exact ⟨hclaimed, h.stored ticket hlt hclaimed (by omega) hstored⟩

end

/-! ## The steps -/

section Steps

variable {t : ι} {p : Pc E}

theorem working_update : (fun x => (Function.update s.pc t p x).working) =
    Function.update (fun x => (s.pc x).working) t p.working := by
  funext x
  exact Function.apply_update (fun _ q => Pc.working q) s.pc t p x

theorem carries_update {elem : Word → E} :
    (fun x => (Function.update s.pc t p x).carries cfg elem) =
      Function.update (fun x => (s.pc x).carries cfg elem) t (p.carries cfg elem) := by
  funext x
  exact Function.apply_update (fun _ q => Pc.carries cfg elem q) s.pc t p x

/-- A thread moves and keeps its ticket. -/
theorem Ordered.keep {tail left : Nat} {slot : Word → SlotState} (h : Ordered cfg acc s)
    (hpend : p.pending = (s.pc t).pending) (hwork : p.working = (s.pc t).working)
    (hcarry : ∀ n e, p.carries cfg s.elem = some (n, e) → acc[n]? = some e)
    (hslot : ∀ i, slot i = .stored → s.slot i = .stored)
    (htaken : tail - (Function.update s.pc t p cfg.worker).unserved = s.taken cfg) :
    Ordered cfg acc
      { head := s.head, tail, slot, elem := s.elem, pc := Function.update s.pc t p, left } where
  length := h.length
  carried := by
    intro x n e hx
    rcases update_eq_iff.mp ((congrFun carries_update x).symm.trans hx) with
      ⟨_, hnew⟩ | ⟨_, hold⟩
    · exact hcarry n e hnew
    · exact h.carried x n e hold
  stored := by
    intro n hn hnot hle hstored
    rw [pending_keep hpend] at hnot
    have hle' : s.taken cfg ≤ n := htaken ▸ hle
    exact h.stored n hn hnot hle' (hslot _ hstored)
  early := by
    intro n hn
    show tail - (Function.update s.pc t p cfg.worker).unserved ≤ n
    rw [htaken]
    exact h.early n ((pending_keep hpend).mp hn)
  lap := by
    intro n hn hnot
    rw [pending_keep hpend] at hnot ⊢
    exact h.lap n hn hnot
  working := by
    intro x n hx
    have hold : (s.pc x).working = some n := by
      rw [congrFun working_update x, hwork, Function.update_eq_self t fun x => (s.pc x).working]
        at hx
      exact hx
    obtain ⟨hn, hnot, hle⟩ := h.working x n hold
    refine ⟨hn, ?_, ?_⟩
    · rwa [pending_keep hpend]
    · show tail - (Function.update s.pc t p cfg.worker).unserved ≤ n
      rwa [htaken]

/-- A thread outside of `pop` moves. -/
theorem Ordered.outside {left : Nat} {slot : Word → SlotState} (h : Ordered cfg acc s)
    (hpend : p.pending = (s.pc t).pending) (hwork : p.working = (s.pc t).working)
    (hcarry : ∀ n e, p.carries cfg s.elem = some (n, e) → acc[n]? = some e)
    (hslot : ∀ i, slot i = .stored → s.slot i = .stored) (hold : (s.pc t).popping = none)
    (hnew : p.popping = none) :
    Ordered cfg acc { s with slot, left, pc := Function.update s.pc t p } := by
  obtain ⟨_, huns⟩ := popping_update cfg hold hnew
  apply h.keep hpend hwork hcarry hslot
  rw [huns]
  rfl

/-- A push gets the next ticket. -/
theorem Ordered.accept {e : E} {head : Nat} (h : Ordered cfg acc s) (hb : Bounds cfg s)
    (hpc : s.pc t = .casHead e head) :
    Ordered cfg (acc ++ [e]) ({ s with head := s.head + 1 }.goto t (.claimEmpty e s.head)) := by
  have hlen := h.length
  have hiff := pending_accept (s := s) (show (s.pc t).pending = none by rw [hpc]; rfl) e
  have huns := (popping_update cfg (p := .claimEmpty e s.head)
    (show (s.pc t).popping = none by rw [hpc]; rfl) rfl).2
  have htaken : s.tail - (Function.update s.pc t (.claimEmpty e s.head) cfg.worker).unserved =
      s.taken cfg := by
    rw [huns]
    rfl
  have hle : s.taken cfg ≤ s.head := by
    have hbatch := hb.batch
    unfold State.taken
    omega
  have hgrow : ∀ (n : Nat) (x : E), acc[n]? = some x → (acc ++ [e])[n]? = some x := by
    intro n x hx
    rw [List.getElem?_append_left (List.getElem?_eq_some_iff.mp hx).1]
    exact hx
  constructor
  · show (acc ++ [e]).length = s.head + 1
    rw [List.length_append, hlen]
    rfl
  · intro x n e' hx
    rcases update_eq_iff.mp ((congrFun carries_update x).symm.trans hx) with
      ⟨_, hnew⟩ | ⟨_, hold⟩
    · cases hnew
      rw [← hlen, List.getElem?_append_right (Nat.le_refl _), Nat.sub_self]
      rfl
    · exact hgrow n e' (h.carried x n e' hold)
  · intro n hn hnot hn' hstored
    have hnew := mt (hiff n).mpr hnot
    rw [not_or] at hnew
    have hn'' : s.taken cfg ≤ n := htaken ▸ hn'
    have hlt : n < s.head + 1 := hn
    have hold := h.stored n (by omega) hnew.2 hn'' hstored
    exact hgrow n _ hold
  · intro n hn
    show s.tail - (Function.update s.pc t (.claimEmpty e s.head) cfg.worker).unserved ≤ n
    rw [htaken]
    rcases (hiff n).mp hn with rfl | hold
    · exact hle
    · exact h.early n hold
  · intro n hn hnot hpend
    have hnew := mt (hiff _).mpr hnot
    rw [not_or] at hnew
    have hlt : n + cfg.size.toNat < s.head + 1 := hn
    rcases (hiff n).mp hpend with rfl | hold
    · omega
    · exact h.lap n (by omega) hnew.2 hold
  · intro x n hx
    rcases update_eq_iff.mp ((congrFun working_update x).symm.trans hx) with
      ⟨_, hnew⟩ | ⟨_, hold⟩
    · cases hnew
    · obtain ⟨hn, hnot, hn'⟩ := h.working x n hold
      refine ⟨Nat.lt_succ_of_lt hn, ?_, ?_⟩
      · intro hpend
        rcases (hiff n).mp hpend with rfl | hold'
        · exact Nat.lt_irrefl _ hn
        · exact hnot hold'
      · show s.tail - (Function.update s.pc t (.claimEmpty e s.head) cfg.worker).unserved ≤ n
        rwa [htaken]

/-- A push claims its slot, and no other push is a lap behind. -/
theorem Ordered.claim {e : E} {ticket : Nat} (h : Ordered cfg acc s) (hc : Counts cfg s)
    (hpc : s.pc t = .claimEmpty e ticket)
    (hlap : ∀ t', ∀ n ∈ (s.pc t').pending, n + cfg.size.toNat ≠ ticket) :
    Ordered cfg acc ((s.setSlot (cfg.slot ticket) .storing).goto t (.store e ticket)) := by
  have hticket : Pending s.pc ticket := ⟨t, by rw [hpc]; rfl⟩
  have hiff := hc.pending_claim hpc
  have huns := (popping_update cfg (p := .store e ticket)
    (show (s.pc t).popping = none by rw [hpc]; rfl) rfl).2
  have htaken : s.tail - (Function.update s.pc t (.store e ticket) cfg.worker).unserved =
      s.taken cfg := by
    rw [huns]
    rfl
  constructor
  · exact h.length
  · intro x n e' hx
    rcases update_eq_iff.mp ((congrFun carries_update x).symm.trans hx) with
      ⟨_, hnew⟩ | ⟨_, hold⟩
    · exact h.carried t n e' (by rw [hpc]; exact hnew)
    · exact h.carried x n e' hold
  · intro n hn hnot hn' hstored
    rcases update_eq_iff.mp hstored with ⟨_, hnew⟩ | ⟨hne, hold⟩
    · cases hnew
    · have hnt : n ≠ ticket := fun heq => hne (by rw [heq])
      have hn'' : s.taken cfg ≤ n := htaken ▸ hn'
      exact h.stored n hn (fun hpend => hnot ((hiff n).mpr ⟨hpend, hnt⟩)) hn'' hold
  · intro n hn
    show s.tail - (Function.update s.pc t (.store e ticket) cfg.worker).unserved ≤ n
    rw [htaken]
    exact h.early n ((hiff n).mp hn).1
  · intro n hn hnot hpend
    have hold := ((hiff n).mp hpend).1
    by_cases hnt : n + cfg.size.toNat = ticket
    · obtain ⟨x, hx⟩ := hold
      exact hlap x n hx hnt
    · exact h.lap n hn (fun hpend' => hnot ((hiff _).mpr ⟨hpend', hnt⟩)) hold
  · intro x n hx
    show n < s.head ∧ ¬ Pending (Function.update s.pc t (.store e ticket)) n ∧
      s.tail - (Function.update s.pc t (.store e ticket) cfg.worker).unserved ≤ n
    rw [htaken, hiff]
    rcases update_eq_iff.mp ((congrFun working_update x).symm.trans hx) with
      ⟨_, hnew⟩ | ⟨_, hold⟩
    · cases hnew
      exact ⟨hc.ticket t ticket (by rw [hpc]; rfl), by simp, h.early ticket hticket⟩
    · obtain ⟨hn, hnot, hn'⟩ := h.working x n hold
      exact ⟨hn, fun hboth => hnot hboth.1, hn'⟩

/-- A push writes its element to the slot that it has claimed. -/
theorem Ordered.store {e : E} {ticket : Nat} (h : Ordered cfg acc s)
    (ho : Owners cfg s.slot s.pc) (hpc : s.pc t = .store e ticket) :
    Ordered cfg acc ((s.setElem (cfg.slot ticket) e).goto t (.publish ticket)) := by
  have howns : (s.pc t).owns cfg = some (cfg.slot ticket, .storing) := by rw [hpc]; rfl
  have hslot := ho.held t _ _ howns
  have hpend : ∀ n, Pending (Function.update s.pc t (.publish ticket)) n ↔ Pending s.pc n :=
    fun n => pending_keep (by rw [hpc]; rfl)
  have huns := (popping_update cfg (p := .publish ticket)
    (show (s.pc t).popping = none by rw [hpc]; rfl) rfl).2
  have htaken : s.tail - (Function.update s.pc t (.publish ticket) cfg.worker).unserved =
      s.taken cfg := by
    rw [huns]
    rfl
  constructor
  · exact h.length
  · intro x n e' hx
    have hx' : (Function.update s.pc t (.publish ticket) x).carries cfg
        (Function.update s.elem (cfg.slot ticket) e) = some (n, e') := hx
    by_cases hxt : x = t
    · subst hxt
      rw [Function.update_self] at hx'
      have helem : (ticket, e) = (n, e') := by
        simpa [Pc.carries] using hx'
      cases helem
      exact h.carried x ticket e (by rw [hpc]; rfl)
    · rw [Function.update_of_ne hxt] at hx'
      apply h.carried x n e'
      rw [← hx']
      -- Another thread that has an element of the array works in another slot.
      cases hpx : s.pc x with
      | publish ticket' | load ticket' =>
        have hne : cfg.slot ticket' ≠ cfg.slot ticket :=
          ho.slot_ne hxt (by rw [hpx]; rfl) howns
        simp [Pc.carries, hne]
      | _ => rfl
  · intro n hn hnot hn' hstored
    have hne : cfg.slot n ≠ cfg.slot ticket := by
      intro heq
      have hboth : SlotState.stored = .storing := hstored.symm.trans (heq ▸ hslot)
      cases hboth
    have hn'' : s.taken cfg ≤ n := htaken ▸ hn'
    have hold := h.stored n hn (fun hp => hnot ((hpend n).mpr hp)) hn'' hstored
    show acc[n]? = some (Function.update s.elem (cfg.slot ticket) e (cfg.slot n))
    rw [Function.update_of_ne hne]
    exact hold
  · intro n hn
    show s.tail - (Function.update s.pc t (.publish ticket) cfg.worker).unserved ≤ n
    rw [htaken]
    exact h.early n ((hpend n).mp hn)
  · intro n hn hnot hp
    exact h.lap n hn (fun hp' => hnot ((hpend _).mpr hp')) ((hpend n).mp hp)
  · intro x n hx
    show n < s.head ∧ ¬ Pending (Function.update s.pc t (.publish ticket)) n ∧
      s.tail - (Function.update s.pc t (.publish ticket) cfg.worker).unserved ≤ n
    rw [htaken, hpend]
    rcases update_eq_iff.mp ((congrFun working_update x).symm.trans hx) with
      ⟨_, hnew⟩ | ⟨_, hold⟩
    · cases hnew
      exact h.working t ticket (by rw [hpc]; rfl)
    · exact h.working x n hold

/-- A push has written its element, and says so. -/
theorem Ordered.publish {ticket : Nat} (h : Ordered cfg acc s) (hc : Counts cfg s)
    (hpc : s.pc t = .publish ticket) :
    Ordered cfg acc ((s.setSlot (cfg.slot ticket) .stored).goto t .out) := by
  obtain ⟨hlt, hclaimed, hle⟩ := h.working t ticket (by rw [hpc]; rfl)
  have helem := h.carried t ticket (s.elem (cfg.slot ticket)) (by rw [hpc]; rfl)
  have hpend : ∀ n, Pending (Function.update s.pc t .out) n ↔ Pending s.pc n :=
    fun n => pending_keep (by rw [hpc]; rfl)
  have huns := (popping_update cfg (p := .out)
    (show (s.pc t).popping = none by rw [hpc]; rfl) rfl).2
  have htaken : s.tail - (Function.update s.pc t .out cfg.worker).unserved = s.taken cfg := by
    rw [huns]
    rfl
  constructor
  · exact h.length
  · intro x n e hx
    rcases update_eq_iff.mp ((congrFun carries_update x).symm.trans hx) with
      ⟨_, hnew⟩ | ⟨_, hold⟩
    · cases hnew
    · exact h.carried x n e hold
  · intro n hn hnot hn' hstored
    have hnot' : ¬ Pending s.pc n := fun hp => hnot ((hpend n).mpr hp)
    have hn'' : s.taken cfg ≤ n := htaken ▸ hn'
    show acc[n]? = some (s.elem (cfg.slot n))
    by_cases hslot : cfg.slot n = cfg.slot ticket
    · -- No other ticket has claimed this slot and is still to be served.
      have hsame : n = ticket := by
        rcases Nat.lt_trichotomy n ticket with hless | heq | hmore
        · exact absurd (h.claimed_unique hc hn'' hless hlt hslot hnot') hclaimed
        · exact heq
        · exact absurd (h.claimed_unique hc hle hmore hn hslot.symm hclaimed) hnot'
      rw [hsame]
      exact helem
    · have hold : s.slot (cfg.slot n) = .stored :=
        (Function.update_of_ne hslot ..).symm.trans hstored
      exact h.stored n hn hnot' hn'' hold
  · intro n hn
    show s.tail - (Function.update s.pc t .out cfg.worker).unserved ≤ n
    rw [htaken]
    exact h.early n ((hpend n).mp hn)
  · intro n hn hnot hp
    exact h.lap n hn (fun hp' => hnot ((hpend _).mpr hp')) ((hpend n).mp hp)
  · intro x n hx
    show n < s.head ∧ ¬ Pending (Function.update s.pc t .out) n ∧
      s.tail - (Function.update s.pc t .out cfg.worker).unserved ≤ n
    rw [htaken, hpend]
    rcases update_eq_iff.mp ((congrFun working_update x).symm.trans hx) with
      ⟨_, hnew⟩ | ⟨_, hold⟩
    · cases hnew
    · exact h.working x n hold

/-- The worker claims the slot of its ticket. -/
theorem Ordered.serve {ticket : Nat} (hfits : cfg.Fits) (h : Ordered cfg acc s)
    (ho : Owners cfg s.slot s.pc) (hb : Bounds cfg s) (hc : Counts cfg s)
    (hpc : s.pc cfg.worker = .claimStored ticket)
    (hstored : s.slot (cfg.slot ticket) = .stored) :
    Ordered cfg acc ((s.setSlot (cfg.slot ticket) .loading).goto cfg.worker (.load ticket)) := by
  have hlast : ticket + 1 = s.tail := hc.last ticket (by rw [hpc]; rfl)
  have hbatch := hb.batch
  have htaken : s.taken cfg = ticket := by
    unfold State.taken
    rw [hpc]
    show s.tail - 1 = ticket
    omega
  obtain ⟨hclaimed, helem⟩ := h.serves hfits hc (by omega) htaken hstored
  have hpend : ∀ n, Pending (Function.update s.pc cfg.worker (.load ticket)) n ↔
      Pending s.pc n := fun n => pending_keep (by rw [hpc]; rfl)
  have htaken' : s.tail -
      (Function.update s.pc cfg.worker (.load ticket) cfg.worker).unserved = ticket + 1 := by
    rw [Function.update_self, hlast]
    rfl
  constructor
  · exact h.length
  · intro x n e hx
    rcases update_eq_iff.mp ((congrFun carries_update x).symm.trans hx) with
      ⟨_, hnew⟩ | ⟨_, hold⟩
    · cases hnew
      exact helem
    · exact h.carried x n e hold
  · intro n hn hnot hn' hst
    rcases update_eq_iff.mp hst with ⟨_, hnew⟩ | ⟨_, hold⟩
    · cases hnew
    · have hn'' : ticket + 1 ≤ n := htaken' ▸ hn'
      exact h.stored n hn (fun hp => hnot ((hpend n).mpr hp)) (by omega) hold
  · intro n hn
    show s.tail - (Function.update s.pc cfg.worker (.load ticket) cfg.worker).unserved ≤ n
    have hold := (hpend n).mp hn
    have hle := h.early n hold
    have hne : n ≠ ticket := by
      rintro rfl
      exact hclaimed hold
    omega
  · intro n hn hnot hp
    exact h.lap n hn (fun hp' => hnot ((hpend _).mpr hp')) ((hpend n).mp hp)
  · intro x n hx
    show n < s.head ∧ ¬ Pending (Function.update s.pc cfg.worker (.load ticket)) n ∧
      s.tail - (Function.update s.pc cfg.worker (.load ticket) cfg.worker).unserved ≤ n
    rw [htaken', hpend]
    rcases update_eq_iff.mp ((congrFun working_update x).symm.trans hx) with
      ⟨_, hnew⟩ | ⟨_, hold⟩
    · cases hnew
    · obtain ⟨hn, hnot, hle⟩ := h.working x n hold
      refine ⟨hn, hnot, ?_⟩
      -- A push that is still at work has not the ticket whose slot is stored.
      have hne : n ≠ ticket := by
        rintro rfl
        have hboth := ho.held x _ _ (owns_of_working hold)
        rw [hstored] at hboth
        cases hboth
      omega

omit [DecidableEq ι] in
theorem slot_setSlot_ne_stored {i j : Word} {v : SlotState} (hv : v ≠ .stored)
    (h : (s.setSlot i v).slot j = .stored) : s.slot j = .stored := by
  rcases update_eq_iff.mp h with ⟨_, hnew⟩ | ⟨_, hold⟩
  · exact absurd hnew hv
  · exact hold

theorem Ordered.step {a : Label ι E} (hfits : cfg.Fits) (ho : Owners cfg s.slot s.pc)
    (hb : Bounds cfg s) (hc : Counts cfg s) (h : Ordered cfg acc s) (hguard : InOrder cfg s a)
    (hs : step cfg s a = some s') : Ordered cfg (acc ++ accepted s a) s' := by
  have hsame : accepted s a = [] → Ordered cfg acc s' → Ordered cfg (acc ++ accepted s a) s' := by
    intro hnil hord
    rwa [hnil, List.append_nil]
  have hself : ∀ i, s.slot i = .stored → s.slot i = .stored := fun _ hi => hi
  cases step_cases hs with
  | tryPush hpc | refuse hpc _ | loadTail hpc _ | wasSize hpc _ | sizeTail hpc =>
    apply hsame rfl
    exact h.outside (by simp [hpc, Pc.pending]) (by simp [hpc, Pc.working]) (by simp [Pc.carries])
      hself (by simp [hpc, Pc.popping]) rfl
  | casFails hpc hfail =>
    apply hsame (accepted_casFails hpc hfail)
    exact h.outside (by simp [hpc, Pc.pending]) (by simp [hpc, Pc.working]) (by simp [Pc.carries])
      hself (by simp [hpc, Pc.popping]) rfl
  | casHead hpc hword =>
    rw [accepted_casHead hpc hword]
    exact h.accept hb hpc
  | claimEmpty hpc hempty =>
    apply hsame rfl
    exact h.claim hc hpc (hguard.2.1 _ rfl _ (by rw [hpc]; rfl))
  | waitEmpty hpc | seeEmpty hpc =>
    apply hsame rfl
    refine h.outside (by simp [hpc, Pc.pending]) (by simp [hpc, Pc.working]) ?_ hself
      (by simp [hpc, Pc.popping]) rfl
    intro n e hn
    exact h.carried _ n e (by rw [hpc]; exact hn)
  | spinEmpty | spinStored => exact hsame rfl h
  | store hpc => exact hsame rfl (h.store ho hpc)
  | publish hpc => exact hsame rfl (h.publish hc hpc)
  | pop hpc hleft =>
    apply hsame rfl
    refine h.keep (by simp [hpc, Pc.pending]) (by simp [hpc, Pc.working]) (by simp [Pc.carries])
      hself ?_
    rw [Function.update_self]
    unfold State.taken
    rw [hpc]
    rfl
  | claimStored hpc hstored => exact hsame rfl (h.serve hfits ho hb hc hpc hstored)
  | waitStored hpc | seeStored hpc =>
    apply hsame rfl
    refine h.keep (by simp [hpc, Pc.pending]) (by simp [hpc, Pc.working]) (by simp [Pc.carries])
      hself ?_
    rw [Function.update_self]
    unfold State.taken
    rw [hpc]
    rfl
  | load hpc =>
    apply hsame rfl
    refine h.keep (by simp [hpc, Pc.pending]) (by simp [hpc, Pc.working]) ?_ hself ?_
    · intro n e hn
      exact h.carried _ n e (by rw [hpc]; exact hn)
    · rw [Function.update_self]
      unfold State.taken
      rw [hpc]
      rfl
  | release hpc =>
    apply hsame rfl
    refine h.keep (by simp [hpc, Pc.pending]) (by simp [hpc, Pc.working]) (by simp [Pc.carries])
      (fun j hj => slot_setSlot_ne_stored (by decide) hj) ?_
    rw [Function.update_self]
    unfold State.taken
    rw [hpc]
    rfl

end Steps

omit [DecidableEq ι] in
theorem ordered_newState [Inhabited E] : Ordered cfg [] (newState : State ι E) where
  length := rfl
  carried t h e ht := by cases ht
  stored h hh := absurd hh (Nat.not_lt_zero h)
  early h _ := Nat.zero_le h
  lap h hh := absurd hh (Nat.not_lt_zero _)
  working t h ht := by cases ht

/-! ## The plain queue -/

/-- What an operation does to the queue, and its answer: a push with its
ticket, a push that is refused, a pop with its ticket. -/
def decided (cfg : Config ι) (s : State ι E) : Label ι E → List (Fifo.Section E × Bool)
  | .loadTail t =>
    match s.pc t with
    | .loadTail e head =>
      if full cfg.size (word head) (word s.tail) then [(.push e, false)] else []
    | _ => []
  | .casHead t false =>
    match s.pc t with
    | .casHead e head => if word s.head = word head then [(.push e, true)] else []
    | _ => []
  | .pop => [(.pop, true)]
  | _ => []

/-- The pops that have returned. -/
def State.done (cfg : Config ι) (s : State ι E) : Nat :=
  s.tail - if (s.pc cfg.worker).popping.isSome then 1 else 0

omit [DecidableEq ι] in
/-- A thread that is behind `tail_` does not find the queue full. -/
theorem Config.Fits.not_full_of_behind (h : cfg.Fits) {head tail : Nat} (hlt : head < tail)
    (hle : tail ≤ head + 2 ^ 31) : ¬ full cfg.size (word head) (word tail) := by
  have hnat : (word head - word tail).toNat = 2 ^ 32 - (tail - head) := by
    unfold word
    rw [BitVec.toNat_sub, BitVec.toNat_ofNat, BitVec.toNat_ofNat]
    omega
  have hneg : (word head - word tail).toInt < 0 := by
    rw [BitVec.toInt_eq_toNat_cond, hnat]
    split_ifs <;> omega
  have hsize : cfg.size.toInt = cfg.size.toNat := by
    have := h.size_le
    exact BitVec.toInt_eq_toNat_of_lt (by omega)
  unfold full
  omega

/-- What the operations so far have made of the plain queue. -/
structure Plain (cfg : Config ι) (acc ret : List E) (ops : List (Fifo.Section E × Bool))
    (s : State ι E) : Prop where
  content : (Fifo.list cfg.size.toNat).after [] (ops.map Prod.fst) = acc.drop s.tail
  answers : ops.map Prod.snd = (Fifo.list cfg.size.toNat).answers [] (ops.map Prod.fst)
  values : (Fifo.list cfg.size.toNat).values [] (ops.map Prod.fst) = acc.take s.tail
  got : ret = acc.take (s.done cfg)

section Plain

variable {ret : List E} {ops : List (Fifo.Section E × Bool)}

omit [DecidableEq ι]

/-- A push that finds room. -/
theorem Plain.accept (h : Plain cfg acc ret ops s) {e : E} (hlen : acc.length = s.head)
    (htail : s.tail ≤ s.head) (hroom : s.head < s.tail + cfg.size.toNat)
    (htail' : s'.tail = s.tail) (hdone : s'.done cfg = s.done cfg) :
    Plain cfg (acc ++ [e]) ret (ops ++ [(.push e, true)]) s' := by
  have hle : s.done cfg ≤ acc.length := by
    unfold State.done
    omega
  have hfull : (Fifo.list cfg.size.toNat).full (acc.drop s.tail) = false := by
    show decide (cfg.size.toNat ≤ (acc.drop s.tail).length) = false
    rw [List.length_drop, hlen]
    exact decide_eq_false (by omega)
  have henter : (Fifo.list cfg.size.toNat).enter (acc.drop s.tail) (.push e) =
      (none, acc.drop s.tail ++ [e]) := by
    unfold Fifo.enter
    simp only [hfull, Bool.false_eq_true, if_false]
    rfl
  constructor
  · rw [List.map_append, List.map_singleton, Fifo.after_concat, h.content, henter, htail',
      List.drop_append_of_le_length (by omega)]
  · rw [List.map_append, List.map_append, List.map_singleton, List.map_singleton,
      Fifo.answers_concat, h.answers, h.content]
    show _ ++ [true] = _ ++ [!(Fifo.list cfg.size.toNat).full (acc.drop s.tail)]
    rw [hfull]
    rfl
  · rw [List.map_append, List.map_singleton, Fifo.values_concat, h.content, henter, htail',
      h.values, List.take_append_of_le_length (by omega)]
    exact List.append_nil _
  · rw [hdone, List.take_append_of_le_length hle]
    exact h.got

/-- A push that does not find room. -/
theorem Plain.refuse (h : Plain cfg acc ret ops s) {e : E} (hlen : acc.length = s.head)
    (hroom : s.tail + cfg.size.toNat ≤ s.head) (htail' : s'.tail = s.tail)
    (hdone : s'.done cfg = s.done cfg) :
    Plain cfg acc ret (ops ++ [(.push e, false)]) s' := by
  have hfull : (Fifo.list cfg.size.toNat).full (acc.drop s.tail) = true := by
    show decide (cfg.size.toNat ≤ (acc.drop s.tail).length) = true
    rw [List.length_drop, hlen]
    exact decide_eq_true (by omega)
  have henter : (Fifo.list cfg.size.toNat).enter (acc.drop s.tail) (.push e) =
      (none, acc.drop s.tail) := by
    unfold Fifo.enter
    simp only [hfull, if_true]
  constructor
  · rw [List.map_append, List.map_singleton, Fifo.after_concat, h.content, henter, htail']
  · rw [List.map_append, List.map_append, List.map_singleton, List.map_singleton,
      Fifo.answers_concat, h.answers, h.content]
    show _ ++ [false] = _ ++ [!(Fifo.list cfg.size.toNat).full (acc.drop s.tail)]
    rw [hfull]
    rfl
  · rw [List.map_append, List.map_singleton, Fifo.values_concat, h.content, henter, htail',
      h.values]
    exact List.append_nil _
  · rw [hdone]
    exact h.got

/-- A pop with a ticket that a push has got before. -/
theorem Plain.pop (h : Plain cfg acc ret ops s) (hlen : acc.length = s.head)
    (hless : s.tail < s.head) (htail' : s'.tail = s.tail + 1)
    (hdone : s'.done cfg = s.done cfg) : Plain cfg acc ret (ops ++ [(.pop, true)]) s' := by
  have hempty : (Fifo.list cfg.size.toNat).empty (acc.drop s.tail) = false := by
    show (acc.drop s.tail).isEmpty = false
    rw [List.isEmpty_eq_false_iff, ← List.length_pos_iff_ne_nil, List.length_drop]
    omega
  have henter : (Fifo.list cfg.size.toNat).enter (acc.drop s.tail) .pop =
      (acc[s.tail]?, acc.drop (s.tail + 1)) := by
    unfold Fifo.enter
    simp only [hempty, Bool.false_eq_true, if_false]
    show ((acc.drop s.tail).head?, (acc.drop s.tail).tail) = _
    rw [List.head?_drop, List.tail_drop]
  constructor
  · rw [List.map_append, List.map_singleton, Fifo.after_concat, h.content, henter, htail']
  · rw [List.map_append, List.map_append, List.map_singleton, List.map_singleton,
      Fifo.answers_concat, h.answers, h.content]
    show _ ++ [true] = _ ++ [!(Fifo.list cfg.size.toNat).empty (acc.drop s.tail)]
    rw [hempty]
    rfl
  · rw [List.map_append, List.map_singleton, Fifo.values_concat, h.content, henter, htail',
      h.values, List.take_add_one]
  · rw [hdone]
    exact h.got

/-- Nothing happens to the queue. -/
theorem Plain.stay (h : Plain cfg acc ret ops s) (htail' : s'.tail = s.tail)
    (hdone : s'.done cfg = s.done cfg) : Plain cfg acc ret ops s' := by
  refine ⟨?_, h.answers, ?_, ?_⟩
  · rw [h.content, htail']
  · rw [h.values, htail']
  · rw [hdone]
    exact h.got

end Plain

theorem done_goto {t : ι} {p : Pc E} {head left : Nat} {slot : Word → SlotState}
    {elem : Word → E} (hpop : p.popping.isSome = (s.pc t).popping.isSome) :
    State.done cfg { s with head, slot, elem, left, pc := Function.update s.pc t p } =
      s.done cfg := by
  unfold State.done
  by_cases ht : cfg.worker = t
  · simp only [ht, Function.update_self, hpop]
  · simp only [Function.update_of_ne ht]

omit [DecidableEq ι] in
theorem decided_casFails {t : ι} {e : E} {head : Nat} {spurious : Bool}
    (hpc : s.pc t = .casHead e head) (hfail : ¬ (word s.head = word head ∧ spurious = false)) :
    decided cfg s (.casHead t spurious) = [] := by
  cases spurious with
  | true => rfl
  | false =>
    simp only [and_true] at hfail
    simp [decided, hpc, hfail]

theorem Plain.step {a : Label ι E} {ret : List E} {ops : List (Fifo.Section E × Bool)}
    (hfits : cfg.Fits) (hb : Bounds cfg s) (hc : Counts cfg s) (hord : Ordered cfg acc s)
    (hguard : InOrder cfg s a) (h : Plain cfg acc ret ops s) (hs : step cfg s a = some s') :
    Plain cfg (acc ++ accepted s a) (ret ++ returned cfg s a) (ops ++ decided cfg s a) s' := by
  have hlen := hord.length
  have hbatch := hb.batch
  have hroom := hb.room
  have hsize := hfits.size_le
  have hstay : accepted s a = [] → returned cfg s a = [] → decided cfg s a = [] →
      s'.tail = s.tail → s'.done cfg = s.done cfg →
      Plain cfg (acc ++ accepted s a) (ret ++ returned cfg s a) (ops ++ decided cfg s a) s' := by
    intro hacc hret hops htail hdone
    rw [hacc, hret, hops, List.append_nil, List.append_nil, List.append_nil]
    exact h.stay htail hdone
  cases step_cases hs with
  | tryPush hpc | wasSize hpc _ | sizeTail hpc | waitEmpty hpc | seeEmpty hpc | store hpc
    | claimEmpty hpc _ | publish hpc | waitStored hpc | seeStored hpc | load hpc
    | claimStored hpc _ =>
    exact hstay rfl rfl rfl rfl (done_goto (s := s) (by rw [hpc]; rfl))
  | spinEmpty | spinStored => exact hstay rfl rfl rfl rfl rfl
  | loadTail hpc hnot =>
    exact hstay rfl rfl (by simp [decided, hpc, hnot]) rfl (done_goto (s := s) (by rw [hpc]; rfl))
  | casFails hpc hfail =>
    exact hstay (accepted_casFails hpc hfail) rfl (decided_casFails hpc hfail) rfl
      (done_goto (s := s) (by rw [hpc]; rfl))
  | refuse hpc hfull =>
    next t e head =>
    have hloaded := hb.loaded t
    rw [hpc] at hloaded
    have hhead : head ≤ s.head := hloaded
    have hrecent : s.head < head + 2 ^ 31 := hguard.2.2 t rfl head (by rw [hpc]; rfl)
    have hops : decided cfg s (.loadTail t) = [(.push e, false)] := by
      simp [decided, hpc, hfull]
    have hout : s.tail + cfg.size.toNat ≤ s.head := by
      by_cases hbehind : head < s.tail
      · exact absurd hfull (hfits.not_full_of_behind hbehind (by omega))
      · rw [hfits.full_iff (by omega) (by omega)] at hfull
        omega
    show Plain cfg (acc ++ []) (ret ++ []) _ _
    rw [hops, List.append_nil, List.append_nil]
    exact h.refuse hlen hout rfl (done_goto (s := s) (by rw [hpc]; rfl))
  | casHead hpc hword =>
    next t e head =>
    have hloaded := hb.loaded t
    rw [hpc] at hloaded
    have hlt : head < s.tail + cfg.size.toNat := hloaded.2
    have hsame : s.head = head := hguard.1 t rfl head (by rw [hpc]; rfl) hword
    have hops : decided cfg s (.casHead t false) = [(.push e, true)] := by
      simp [decided, hpc, hword]
    show Plain cfg _ (ret ++ []) _ _
    rw [accepted_casHead hpc hword, hops, List.append_nil]
    exact h.accept hlen (by omega) (by omega) rfl (done_goto (s := s) (by rw [hpc]; rfl))
  | pop hpc hleft =>
    show Plain cfg (acc ++ []) (ret ++ []) (ops ++ [(.pop, true)]) _
    rw [List.append_nil, List.append_nil]
    apply h.pop hlen (by omega) rfl
    unfold State.done
    simp [State.goto, hpc, Pc.popping]
  | release hpc =>
    next e ticket =>
    have hlast : ticket + 1 = s.tail := hc.last ticket (by rw [hpc]; rfl)
    have helem : acc[ticket]? = some e := hord.carried _ ticket e (by rw [hpc]; rfl)
    have hdone : s.done cfg = ticket := by
      unfold State.done
      rw [hpc]
      show s.tail - 1 = ticket
      omega
    have hret : returned cfg s (.release : Label ι E) = [e] := by simp [returned, hpc]
    show Plain cfg (acc ++ []) _ (ops ++ []) _
    rw [hret, List.append_nil, List.append_nil]
    refine ⟨h.content, h.answers, h.values, ?_⟩
    have hdone' : State.done cfg ((s.setSlot (cfg.slot ticket) .empty).goto cfg.worker .out) =
        ticket + 1 := by
      unfold State.done
      simp [State.goto, State.setSlot, Pc.popping, hlast]
    rw [hdone', List.take_add_one, helem, h.got, hdone]
    rfl

omit [DecidableEq ι] in
theorem plain_newState [Inhabited E] : Plain cfg [] [] [] (newState : State ι E) :=
  ⟨rfl, rfl, rfl, rfl⟩

/-- The task queue is a queue.  In a run whose steps meet the condition, the
pushes and pops in the order of their tickets get the answers that a plain
queue with room for `size_` handles gives, and the worker gets the handles that
it gives, in the same order, where a `pop` that has not returned is still
missing. -/
theorem linearizable [Inhabited E] (cfg : Config ι) (hfits : cfg.Fits) (s : State ι E)
    (as : List (Label ι E)) (hrun : (machine cfg).run newState as = some s)
    (horder : (machine cfg).Along (fun s a _ => InOrder cfg s a) newState as) :
    let ops := (machine cfg).shown (decided cfg) newState as
    let plain := Fifo.list cfg.size.toNat
    let got := (machine cfg).shown (returned cfg) newState as
    ops.map Prod.snd = plain.answers [] (ops.map Prod.fst) ∧
      got <+: plain.values [] (ops.map Prod.fst) ∧
      ((s.pc cfg.worker).popping = none → got = plain.values [] (ops.map Prod.fst)) := by
  intro ops plain got
  have hinv : (machine cfg).ReachableUnder Fresh s ∧
      Ordered cfg ((machine cfg).shown accepted newState as) s ∧
      Plain cfg ((machine cfg).shown accepted newState as) got ops s := by
    apply horder.path_invariant (I := fun as s => (machine cfg).ReachableUnder Fresh s ∧
      Ordered cfg ((machine cfg).shown accepted newState as) s ∧
      Plain cfg ((machine cfg).shown accepted newState as)
        ((machine cfg).shown (returned cfg) newState as)
        ((machine cfg).shown (decided cfg) newState as) s) _ _ hrun
    · exact ⟨.init rfl, ordered_newState, plain_newState⟩
    · rintro as s a s' hrun ⟨hr, hord, hplain⟩ hguard hs
      have ho := owners_of_reachable hr.reachable
      have hb := bounds_of_reachable hfits hr
      have hc := counts_of_reachable hr.reachable
      rw [Machine.shown_concat hrun hs, Machine.shown_concat hrun hs,
        Machine.shown_concat hrun hs]
      exact ⟨hr.step hguard.1 hs, hord.step hfits ho hb hc hguard hs,
        hplain.step hfits hb hc hord hguard hs⟩
  obtain ⟨_, _, hplain⟩ := hinv
  refine ⟨hplain.answers, ?_, ?_⟩
  · show got <+: _
    rw [hplain.values, hplain.got]
    apply List.take_prefix_take_left
    unfold State.done
    omega
  · intro hout
    show got = _
    rw [hplain.values, hplain.got]
    unfold State.done
    rw [hout]
    rfl

/-- Two pushes and two pops, of which one has returned. -/
theorem linearizable_two :
    ((machine oneSubmitter).shown (returned oneSubmitter) newState twoHandles) <+: [7, 8] := by
  have hsome : ((machine oneSubmitter).runUnder (InOrder oneSubmitter) newState
    twoHandles).isSome = true := by decide
  obtain ⟨s, hunder⟩ := Option.isSome_iff_exists.mp hsome
  obtain ⟨halong, hrun⟩ := Machine.Along.of_runUnder hunder
  exact (linearizable oneSubmitter (by decide) s twoHandles hrun halong).2.1

end SheepCoro.TaskQueue
