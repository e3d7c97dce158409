import SheepCoro.TaskQueue.Slots

/-!
# The tickets of the task queue

The counters of the queue are 32-bit words, and `try_push` compares their
difference as an `int`.  This module is about runs in which `head_` does not
go round between a load and the exchange that compares with it (`Fresh`): then
the words say what the numbers of tickets are.

`Bounds` is the invariant: the tickets that are given to pushes are ahead of
those that are given to pops, by at most the size of the queue.  So the worker
never takes a ticket for which there is no push (`tickets_bounded`), and
`was_size` is exact.
-/

namespace SheepCoro.TaskQueue

open Lib

/-! ## Differences of words -/

theorem word_sub {m n : Nat} (h : m ≤ n) : word n - word m = word (n - m) := by
  apply BitVec.eq_of_toNat_eq
  unfold word
  rw [BitVec.toNat_sub, BitVec.toNat_ofNat, BitVec.toNat_ofNat, BitVec.toNat_ofNat]
  omega

theorem toInt_word {n : Nat} (h : n < 2 ^ 31) : (word n).toInt = n := by
  have hnat : (word n).toNat = n := by
    unfold word
    rw [BitVec.toNat_ofNat]
    omega
  rw [BitVec.toInt_eq_toNat_of_lt (by omega), hnat]

variable {ι E : Type} [DecidableEq ι] {cfg : Config ι} {s s' : State ι E}

/-- The capacity is such that the size is positive as an `int`. -/
def Config.Fits (cfg : Config ι) : Prop :=
  cfg.cap.toNat ≤ 2 ^ 30

instance (cfg : Config ι) : Decidable cfg.Fits :=
  inferInstanceAs (Decidable (_ ≤ _))

section

omit [DecidableEq ι]

theorem Config.Fits.exists_size (h : cfg.Fits) :
    ∃ k, 12 ≤ k ∧ k ≤ 30 ∧ cfg.size.toNat = 2 ^ k := by
  obtain ⟨k, hk12, hk31, hk⟩ := exists_queueSize_eq cfg.cap
  refine ⟨k, hk12, ?_, hk⟩
  have hleast : (queueSize cfg.cap).toNat ≤ 2 ^ 30 := by
    apply (queueSize_isLeast (Nat.le_trans h (by decide))).2
    exact ⟨⟨30, rfl⟩, h, by decide⟩
  rw [hk] at hleast
  exact (Nat.pow_le_pow_iff_right (by decide)).mp hleast

theorem Config.Fits.size_le (h : cfg.Fits) : cfg.size.toNat ≤ 2 ^ 30 := by
  obtain ⟨k, _, hk30, hk⟩ := h.exists_size
  rw [hk]
  exact Nat.pow_le_pow_right (by decide) hk30

/-- What the comparison says about the numbers of tickets. -/
theorem Config.Fits.full_iff (h : cfg.Fits) {head tail : Nat} (hle : tail ≤ head)
    (hlt : head < tail + 2 ^ 31) :
    full cfg.size (word head) (word tail) ↔ tail + cfg.size.toNat ≤ head := by
  have hsize : cfg.size.toInt = cfg.size.toNat := by
    have := h.size_le
    exact BitVec.toInt_eq_toNat_of_lt (by omega)
  unfold full
  rw [word_sub hle, toInt_word (by omega), hsize]
  omega

end

theorem wasSize_eq {head tail : Nat} (hle : tail ≤ head) (hlt : head < tail + 2 ^ 31) :
    wasSize (word head) (word tail) = head - tail := by
  unfold wasSize
  rw [word_sub hle, toInt_word (by omega)]
  omega

/-! ## The condition -/

/-- The number that a thread compares `head_` with. -/
def Pc.compares : Pc E → Option Nat
  | .casHead _ head => some head
  | _ => none

/-- The thread that compares. -/
def Label.comparing : Label ι E → Option ι
  | .casHead t _ => some t
  | _ => none

/-- The exchange does not take a later round of `head_` for the loaded one. -/
def Fresh (s : State ι E) (a : Label ι E) : Prop :=
  ∀ t ∈ a.comparing, ∀ head ∈ (s.pc t).compares, word s.head = word head → s.head = head

instance (s : State ι E) : DecidablePred (Fresh s) :=
  fun a => inferInstanceAs (Decidable (∀ t ∈ a.comparing, ∀ head ∈ (s.pc t).compares, _))

/-! ## The bounds -/

/-- What a thread knows about the numbers it has loaded. -/
def Pc.Loaded (size head tail : Nat) : Pc E → Prop
  | .loadTail _ n => n ≤ head
  | .casHead _ n => n ≤ head ∧ n < tail + size
  | _ => True

structure Bounds (cfg : Config ι) (s : State ι E) : Prop where
  batch : s.tail + s.left ≤ s.head
  room : s.head ≤ s.tail + cfg.size.toNat
  loaded : ∀ t, (s.pc t).Loaded cfg.size.toNat s.head s.tail
  sized : ∀ b n, s.pc cfg.worker = .sizeTail b n → s.tail ≤ n ∧ n ≤ s.head

theorem Pc.Loaded.mono {size head head' tail tail' : Nat} {p : Pc E}
    (h : p.Loaded size head tail) (hhead : head ≤ head') (htail : tail ≤ tail') :
    p.Loaded size head' tail' := by
  cases p with
  | loadTail e n => exact Nat.le_trans h hhead
  | casHead e n =>
    obtain ⟨hn, hlt⟩ := h
    exact ⟨Nat.le_trans hn hhead, by omega⟩
  | _ => trivial

/-- One thread moves, and the counters may go up. -/
theorem Bounds.move {t : ι} {p : Pc E} {head tail left : Nat} {slot : Word → SlotState}
    {elem : Word → E} (h : Bounds cfg s) (hhead : s.head ≤ head) (htail : s.tail ≤ tail)
    (hbatch : tail + left ≤ head) (hroom : head ≤ tail + cfg.size.toNat)
    (hp : p.Loaded cfg.size.toNat head tail)
    (hsized : ∀ b n, p = .sizeTail b n → tail ≤ n ∧ n ≤ head)
    (hworker : t ≠ cfg.worker → tail = s.tail) :
    Bounds cfg { head, tail, slot, elem, pc := Function.update s.pc t p, left } where
  batch := hbatch
  room := hroom
  loaded := by
    intro x
    show (Function.update s.pc t p x).Loaded cfg.size.toNat head tail
    by_cases hx : x = t
    · subst hx
      rw [Function.update_self]
      exact hp
    · rw [Function.update_of_ne hx]
      exact (h.loaded x).mono hhead htail
  sized := by
    intro b n hw
    rcases update_eq_iff.mp hw with ⟨_, hnew⟩ | ⟨hne, hold⟩
    · exact hsized b n hnew
    · obtain ⟨hn, hle⟩ := h.sized b n hold
      show tail ≤ n ∧ n ≤ head
      rw [hworker (Ne.symm hne)]
      exact ⟨hn, Nat.le_trans hle hhead⟩

/-- One thread moves, and nothing else counts. -/
theorem Bounds.goto {t : ι} {p : Pc E} {slot : Word → SlotState} {elem : Word → E}
    (h : Bounds cfg s) (hp : p.Loaded cfg.size.toNat s.head s.tail)
    (hsized : ∀ b n, p = .sizeTail b n → s.tail ≤ n ∧ n ≤ s.head) :
    Bounds cfg { s with slot, elem, pc := Function.update s.pc t p } :=
  h.move (Nat.le_refl _) (Nat.le_refl _) h.batch h.room hp hsized fun _ => rfl

theorem Bounds.step {a : Label ι E} (hfits : cfg.Fits) (h : Bounds cfg s) (hfresh : Fresh s a)
    (hs : step cfg s a = some s') : Bounds cfg s' := by
  have hbatch := h.batch
  have hroom := h.room
  have hsize := hfits.size_le
  cases step_cases hs with
  | tryPush | casFails => exact h.goto (Nat.le_refl _) (by simp)
  | refuse | waitEmpty | seeEmpty | waitStored | seeStored | load => exact h.goto trivial (by simp)
  | claimEmpty | publish | claimStored | release | store => exact h.goto trivial (by simp)
  | spinEmpty | spinStored => exact h
  | loadTail hpc hnot =>
    next t e head =>
    have hloaded := h.loaded t
    rw [hpc] at hloaded
    have hle : head ≤ s.head := hloaded
    refine h.goto ⟨hle, ?_⟩ (by simp)
    by_cases hbehind : head < s.tail
    · omega
    · rw [hfits.full_iff (by omega) (by omega)] at hnot
      omega
  | casHead hpc hword =>
    next t e head =>
    have hloaded := h.loaded t
    rw [hpc] at hloaded
    obtain ⟨_, hlt⟩ : head ≤ s.head ∧ head < s.tail + cfg.size.toNat := hloaded
    have hsame : s.head = head := hfresh t rfl head (by rw [hpc]; rfl) hword
    have hahead : s.tail + s.left ≤ s.head + 1 := by omega
    have hfit : s.head + 1 ≤ s.tail + cfg.size.toNat := by omega
    exact h.move (Nat.le_succ _) (Nat.le_refl _) hahead hfit trivial (by simp) fun _ => rfl
  | wasSize hpc hleft =>
    refine h.goto trivial ?_
    rintro b n ⟨⟩
    exact ⟨by omega, Nat.le_refl _⟩
  | sizeTail hpc =>
    next batch head =>
    obtain ⟨hle, hhead⟩ := h.sized batch head hpc
    have hexact := wasSize_eq hle (by omega)
    refine h.move (Nat.le_refl _) (Nat.le_refl _) ?_ hroom trivial (by simp) fun _ => rfl
    cases batch with
    | false => exact Nat.le_trans (Nat.le_add_right _ _) hbatch
    | true =>
      show s.tail + wasSize (word head) (word s.tail) ≤ s.head
      omega
  | pop hpc hleft =>
    have hahead : s.tail + 1 + (s.left - 1) ≤ s.head := by omega
    have hfit : s.head ≤ s.tail + 1 + cfg.size.toNat := by omega
    exact h.move (Nat.le_refl _) (Nat.le_succ _) hahead hfit trivial (by simp)
      fun hne => absurd rfl hne

omit [DecidableEq ι] in
theorem bounds_newState [Inhabited E] : Bounds cfg (newState : State ι E) where
  batch := Nat.le_refl 0
  room := Nat.zero_le _
  loaded _ := trivial
  sized b n hw := by cases hw

theorem bounds_of_reachable [Inhabited E] (hfits : cfg.Fits)
    (h : (machine cfg).ReachableUnder Fresh s) : Bounds cfg s := by
  apply h.invariant (I := fun s => Bounds cfg s)
  · rintro s rfl
    exact bounds_newState
  · intro s a s' _ hI hfresh hs
    exact hI.step hfits hfresh hs

/-- The worker only takes tickets that were given to a push before, at most a
whole queue of pushes is ahead of it, and `was_size` tells how many. -/
theorem tickets_bounded [Inhabited E] (cfg : Config ι) (hfits : cfg.Fits) (s : State ι E)
    (h : (machine cfg).ReachableUnder Fresh s) :
    s.tail + s.left ≤ s.head ∧ s.head ≤ s.tail + cfg.size.toNat ∧
      ∀ batch head, s.pc cfg.worker = .sizeTail batch head →
        s.tail + wasSize (word head) (word s.tail) = head ∧ head ≤ s.head := by
  have hbounds := bounds_of_reachable hfits h
  have hroom := hbounds.room
  have hsize := hfits.size_le
  refine ⟨hbounds.batch, hroom, ?_⟩
  intro batch head hpc
  obtain ⟨hle, hhead⟩ := hbounds.sized batch head hpc
  rw [wasSize_eq hle (by omega)]
  exact ⟨by omega, hhead⟩

theorem tickets_bounded_two : ∃ s : State Bool Nat,
    (machine oneSubmitter).ReachableUnder Fresh s ∧ s.tail = 2 ∧ s.tail + s.left ≤ s.head := by
  have hrun : ((machine oneSubmitter).runUnder Fresh newState twoHandles).map
      (fun s => decide (s.tail = 2)) = some true := by decide
  obtain ⟨s, hr, htail⟩ := Machine.reachableUnder_of_run rfl hrun
  exact ⟨s, hr, of_decide_eq_true htail, (tickets_bounded oneSubmitter (by decide) s hr).1⟩

end SheepCoro.TaskQueue
