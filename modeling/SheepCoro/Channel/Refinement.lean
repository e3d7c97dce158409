import SheepCoro.Lib.Fifo
import SheepCoro.Channel.Buffer

/-!
# The buffers are one bounded queue

The three templates of `include/coro/comp/channel.hpp` have their own notions
of full and empty.  To a coroutine inside the lock they are the same queue
with room for `max(capacity, 1)` values, whatever was sent and received
before, also after the free-running counters have wrapped around.
-/

namespace SheepCoro.Channel.Buffer

open Lib

variable {T : Type} {cap : Nat} {b : Buffer T} {xs : List T}

/-- `empty`, `full`, and what `send` and `recv` do inside the lock. -/
def ops (cap : Nat) : Fifo (Buffer T) T where
  empty := Buffer.empty
  full := Buffer.full cap
  put := Buffer.put cap
  front := Buffer.front cap
  pop := Buffer.pop cap

/-- The indices into `m_array` that the next `recv` and the next `send` use. -/
def indices (cap : Nat) : Buffer T → List Nat
  | .slot _ => []
  | .masked head tail _ => [head &&& (cap - 1), tail &&& (cap - 1)]
  | .counted head tail _ _ => [head, tail]

/-- `Holds` is the representation relation. -/
theorem represents (cap : Nat) :
    (ops cap : Fifo (Buffer T) T).Represents (max cap 1) (Holds cap) where
  empty_iff h := h.empty_iff
  full_iff h := by
    have hle := h.length_le
    have hfull := h.full_iff
    show Buffer.full cap _ = true ↔ _
    rw [hfull]
    omega
  put h hfull := h.put hfull
  pop h := h.pop

theorem Holds.indices_lt (h : b.Holds cap xs) : ∀ i ∈ b.indices cap, i < cap := by
  cases b with
  | slot data => simp [indices]
  | masked head tail array =>
    have hbit := h.1
    have hpos : 0 < cap := by
      obtain ⟨k, _, rfl⟩ := hbit
      exact Nat.two_pow_pos k
    have hmask : ∀ n, n &&& (cap - 1) < cap := by
      intro n
      have hle : n &&& (cap - 1) ≤ cap - 1 := Nat.and_le_right
      omega
    simp [indices, hmask]
  | counted head tail num array =>
    obtain ⟨_, _, hhead, htail, _⟩ := h
    have htlt : tail < cap := by
      rw [htail]
      exact Nat.mod_lt _ (by omega)
    simp [indices, hhead, htlt]

/-- Every sequence of critical sections on a new buffer gets the answers and
the values of a list with room for `max(capacity, 1)` values, and the indices
that are used next are always inside the array. -/
theorem bounded_fifo (h : b.New cap) (os : List (Fifo.Section T)) :
    (ops cap).trace b os = (Fifo.list (max cap 1)).trace [] os ∧
      ∀ i ∈ ((ops cap).after b os).indices cap, i < cap := by
  constructor
  · exact (represents cap).trace_eq h.holds os
  · exact ((represents cap).after h.holds os).indices_lt

theorem bounded_fifo_example :
    (ops 3).trace (.counted 0 0 0 fun _ => 0) [.push 7, .pop] =
        (Fifo.list 3).trace [] [.push 7, .pop] ∧
      ∀ i ∈ ((ops 3).after (.counted 0 0 0 fun _ => 0) [.push 7, .pop]).indices 3, i < 3 := by
  have hnew : New 3 (.counted 0 0 0 fun _ => 0) := ⟨by decide, rfl, rfl, rfl⟩
  exact bounded_fifo hnew [.push 7, .pop]

end SheepCoro.Channel.Buffer
