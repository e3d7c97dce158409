import SheepCoro.Lib.Ring
import Mathlib.Tactic.Common

/-!
# The buffers of the three channel templates

`include/coro/comp/channel.hpp` has three class templates.  A capacity of
zero gives one slot; a power of two gives a ring whose two counters run
freely in `size_t` and are masked; every other capacity gives a ring with a
count, whose indices are reset at the capacity.  `Buffer` is the union of
their data members, and the operations are what the templates do with them.

`Holds cap b xs` says that the buffer holds the values `xs`, the oldest
first.  It is the only thing the channel has to know about a buffer.
-/

namespace SheepCoro.Channel

open Lib

inductive Buffer (T : Type)
  /-- `channel<T, 0>`. -/
  | slot (data : Option T)
  /-- `requires(std::has_single_bit(capacity))`. -/
  | masked (head tail : Nat) (array : Nat → T)
  /-- The primary template. -/
  | counted (head tail num : Nat) (array : Nat → T)

variable {T : Type}

/-- `std::has_single_bit` on a `size_t`. -/
def HasSingleBit (cap : Nat) : Prop :=
  ∃ k < 64, cap = 2 ^ k

theorem HasSingleBit.lt {cap : Nat} (h : HasSingleBit cap) : cap < 2 ^ 64 := by
  obtain ⟨k, hk, rfl⟩ := h
  exact Nat.pow_lt_pow_right (by omega) hk

/-- Masking an index is taking it modulo the capacity, and wrapping around at
`2 ^ 64` does not matter to it. -/
theorem HasSingleBit.mask {cap : Nat} (h : HasSingleBit cap) (n : Nat) :
    n % 2 ^ 64 &&& (cap - 1) = n % cap := by
  obtain ⟨k, hk, rfl⟩ := h
  rw [Nat.and_two_pow_sub_one_eq_mod]
  exact Nat.mod_mod_of_dvd n (Nat.pow_dvd_pow 2 (by omega))

namespace Buffer

def empty : Buffer T → Bool
  | .slot data => !data.isSome
  | .masked head tail _ => head == tail
  | .counted _ _ num _ => num == 0

def full (cap : Nat) : Buffer T → Bool
  | .slot data => data.isSome
  | .masked head tail _ => (tail + 2 ^ 64 - head) % 2 ^ 64 == cap
  | .counted _ _ num _ => num == cap

/-- How many values there are, by the members that `empty` and `full` look
at. -/
def size : Buffer T → Nat
  | .slot data => data.toList.length
  | .masked head tail _ => (tail + 2 ^ 64 - head) % 2 ^ 64
  | .counted _ _ num _ => num

/-- What `send` does with the value. -/
def put (cap : Nat) (v : T) : Buffer T → Buffer T
  | .slot _ => .slot (some v)
  | .masked head tail array =>
    .masked head ((tail + 1) % 2 ^ 64) (Function.update array (tail &&& (cap - 1)) v)
  | .counted head tail num array =>
    .counted head (if cap ≤ tail + 1 then 0 else tail + 1) (num + 1)
      (Function.update array tail v)

/-- What `recv` reads; the slot may be empty. -/
def front (cap : Nat) : Buffer T → Option T
  | .slot data => data
  | .masked head _ array => some (array (head &&& (cap - 1)))
  | .counted head _ _ array => some (array head)

/-- What `recv` does with the buffer. -/
def pop (cap : Nat) : Buffer T → Buffer T
  | .slot _ => .slot none
  | .masked head tail array => .masked ((head + 1) % 2 ^ 64) tail array
  | .counted head tail num array =>
    .counted (if cap ≤ head + 1 then 0 else head + 1) tail (num - 1) array

/-- A new buffer of the template that the capacity selects. -/
def Initial (cap : Nat) : Buffer T → Prop
  | .slot data => cap = 0 ∧ data = none
  | .masked head tail _ => HasSingleBit cap ∧ head = 0 ∧ tail = 0
  | .counted head tail num _ => cap ≠ 0 ∧ ¬ HasSingleBit cap ∧ head = 0 ∧ tail = 0 ∧ num = 0

/-- A new buffer of one of the templates.  The ring with a count is right for
every capacity but zero, also for those that select the masked ring. -/
def New (cap : Nat) : Buffer T → Prop
  | .slot data => cap = 0 ∧ data = none
  | .masked head tail _ => HasSingleBit cap ∧ head = 0 ∧ tail = 0
  | .counted head tail num _ => cap ≠ 0 ∧ head = 0 ∧ tail = 0 ∧ num = 0

/-- The buffer holds the values, the oldest first. -/
def Holds (cap : Nat) : Buffer T → List T → Prop
  | .slot data, xs => cap = 0 ∧ xs = data.toList
  | .masked head tail array, xs =>
    HasSingleBit cap ∧ xs.length ≤ cap ∧ head < 2 ^ 64 ∧ tail = (head + xs.length) % 2 ^ 64 ∧
      RingAt cap array head xs
  | .counted head tail num array, xs =>
    xs.length ≤ cap ∧ num = xs.length ∧ head < cap ∧ tail = (head + xs.length) % cap ∧
      RingAt cap array head xs

variable {cap : Nat} {b : Buffer T} {xs : List T} {v : T}

theorem New.holds (h : b.New cap) : b.Holds cap [] := by
  cases b with
  | slot data =>
    obtain ⟨hcap, rfl⟩ := h
    exact ⟨hcap, rfl⟩
  | masked head tail array =>
    obtain ⟨hbit, rfl, rfl⟩ := h
    exact ⟨hbit, Nat.zero_le _, by omega, rfl, trivial⟩
  | counted head tail num array =>
    obtain ⟨hne, rfl, rfl, rfl⟩ := h
    exact ⟨Nat.zero_le _, rfl, by omega, by simp, trivial⟩

/-- The template that a capacity selects starts as such a buffer. -/
theorem Initial.new (h : b.Initial cap) : b.New cap := by
  cases b with
  | slot data => exact h
  | masked head tail array => exact h
  | counted head tail num array =>
    obtain ⟨hne, _, hrest⟩ := h
    exact ⟨hne, hrest⟩

theorem Initial.holds (h : b.Initial cap) : b.Holds cap [] := h.new.holds

/-- A buffer never holds more than `max(capacity, 1)` values. -/
theorem Holds.length_le (h : Holds cap b xs) : xs.length ≤ max cap 1 := by
  cases b with
  | slot data =>
    obtain ⟨_, rfl⟩ := h
    cases data <;> simp
  | masked head tail array => exact Nat.le_trans h.2.1 (Nat.le_max_left ..)
  | counted head tail num array => exact Nat.le_trans h.1 (Nat.le_max_left ..)

/-- The two counters of the masked ring differ by the number of values, also
when they wrap around. -/
theorem masked_distance {head tail n : Nat} (hhead : head < 2 ^ 64) (hn : n < 2 ^ 64)
    (htail : tail = (head + n) % 2 ^ 64) : (tail + 2 ^ 64 - head) % 2 ^ 64 = n := by
  omega

theorem Holds.size_eq (h : Holds cap b xs) : b.size = xs.length := by
  cases b with
  | slot data =>
    obtain ⟨_, rfl⟩ := h
    rfl
  | masked head tail array =>
    obtain ⟨hbit, hle, hhead, htail, _⟩ := h
    have hlt := hbit.lt
    exact masked_distance hhead (by omega) htail
  | counted head tail num array => exact h.2.1

/-- A buffer is full when it holds `max(capacity, 1)` values. -/
theorem Holds.full_iff (h : Holds cap b xs) : b.full cap = true ↔ xs.length = max cap 1 := by
  have hsize := h.size_eq
  cases b with
  | slot data =>
    obtain ⟨rfl, rfl⟩ := h
    cases data <;> simp [full]
  | masked head tail array =>
    have hpos : 1 ≤ cap := by
      obtain ⟨k, _, rfl⟩ := h.1
      exact Nat.one_le_two_pow
    rw [Nat.max_eq_left hpos, ← hsize]
    simp [full, size]
  | counted head tail num array =>
    have hpos : 1 ≤ cap := by
      have hhead := h.2.2.1
      omega
    rw [Nat.max_eq_left hpos, ← hsize]
    simp [full, size]

theorem Holds.empty_iff (h : Holds cap b xs) : b.empty = true ↔ xs = [] := by
  cases b with
  | slot data =>
    obtain ⟨_, rfl⟩ := h
    cases data <;> simp [empty]
  | masked head tail array =>
    obtain ⟨hbit, hle, hhead, htail, _⟩ := h
    have hlt := hbit.lt
    have hdist := masked_distance hhead (by omega) htail
    rw [← List.length_eq_zero_iff]
    simp only [empty, beq_iff_eq]
    constructor
    · intro heq
      rw [heq] at hdist
      omega
    · intro hzero
      rw [hzero] at htail
      omega
  | counted head tail num array =>
    obtain ⟨_, rfl, _⟩ := h
    simp [empty]

/-- A buffer that is not full has room for one value more. -/
theorem Holds.put (h : Holds cap b xs) (hfull : b.full cap = false) :
    Holds cap (b.put cap v) (xs ++ [v]) := by
  cases b with
  | slot data =>
    obtain ⟨hcap, rfl⟩ := h
    cases data with
    | none => exact ⟨hcap, rfl⟩
    | some w => simp [full] at hfull
  | masked head tail array =>
    obtain ⟨hbit, hle, hhead, htail, hring⟩ := h
    have hlt := hbit.lt
    have hdist := masked_distance hhead (by omega) htail
    have hroom : xs.length < cap := by
      simp only [full, hdist, beq_eq_false_iff_ne] at hfull
      omega
    refine ⟨hbit, ?_, hhead, ?_, ?_⟩
    · simp only [List.length_append, List.length_singleton]
      omega
    · simp only [List.length_append, List.length_singleton]
      omega
    · rw [htail, hbit.mask]
      exact hring.push hroom
  | counted head tail num array =>
    obtain ⟨hle, rfl, hhead, htail, hring⟩ := h
    have hroom : xs.length < cap := by
      simp only [full, beq_eq_false_iff_ne] at hfull
      omega
    have htlt : tail < cap := by
      rw [htail]
      exact Nat.mod_lt _ (by omega)
    refine ⟨?_, by simp, hhead, ?_, ?_⟩
    · simp only [List.length_append, List.length_singleton]
      omega
    · simp only [List.length_append, List.length_singleton, ← Nat.add_assoc]
      rw [Nat.add_mod, ← htail]
      split_ifs with hwrap
      · have hcap : tail + 1 = cap := by omega
        by_cases hone : cap = 1
        · subst hone
          omega
        · rw [Nat.mod_eq_of_lt (by omega : 1 < cap), hcap, Nat.mod_self]
      · rw [Nat.mod_eq_of_lt (by omega : 1 < cap), Nat.mod_eq_of_lt (by omega)]
    · rw [htail]
      exact hring.push hroom

/-- A buffer that is not empty gives its oldest value. -/
theorem Holds.pop (h : Holds cap b (v :: xs)) :
    b.front cap = some v ∧ Holds cap (b.pop cap) xs := by
  cases b with
  | slot data =>
    obtain ⟨hcap, hdata⟩ := h
    cases data with
    | none => simp at hdata
    | some w =>
      simp only [Option.toList_some, List.cons.injEq] at hdata
      obtain ⟨rfl, rfl⟩ := hdata
      exact ⟨rfl, hcap, rfl⟩
  | masked head tail array =>
    obtain ⟨hbit, hle, hhead, htail, hcell, hring⟩ := h
    simp only [List.length_cons] at hle htail
    have hlt := hbit.lt
    have hmask := hbit.mask head
    rw [Nat.mod_eq_of_lt hhead] at hmask
    refine ⟨?_, hbit, by omega, Nat.mod_lt _ (by omega), by omega, hring.congr ?_⟩
    · simp only [front, hmask, hcell]
    · rw [← hbit.mask, Nat.mod_mod, hbit.mask]
  | counted head tail num array =>
    obtain ⟨hle, rfl, hhead, htail, hcell, hring⟩ := h
    simp only [List.length_cons] at hle htail
    rw [Nat.mod_eq_of_lt hhead] at hcell
    have hnext : (if cap ≤ head + 1 then 0 else head + 1) = (head + 1) % cap := by
      split_ifs with hwrap
      · have hcap : head + 1 = cap := by omega
        rw [hcap, Nat.mod_self]
      · rw [Nat.mod_eq_of_lt (by omega)]
    refine ⟨by simp only [front, hcell], by omega, by simp, ?_, ?_, hring.congr ?_⟩
    · rw [hnext]
      exact Nat.mod_lt _ (by omega)
    · rw [hnext, htail, Nat.mod_add_mod]
      congr 1
      omega
    · rw [hnext, Nat.mod_mod]

end Buffer

end SheepCoro.Channel
