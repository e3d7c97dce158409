import Mathlib

/-!
# The slots of the task queue

The task queue of an engine is an `AtomicQueueB2` of
`third_party/atomic_queue`.  It hands out tickets from two 32-bit counters,
and a ticket is turned into the index of a slot in two steps: it is masked by
the size of the queue, which the constructor rounds up to a power of two, and
then the lowest six bits of the index change places with the next six.

There are three groups.

* `remapIndex` exchanges two fields of bits.  `getLsbD_remapIndex` says which
  bit comes from where, and the function is its own inverse.
* `roundUpToPowerOf2` smears the highest bit to the right.
  `window_orEqual` is one step of it: the number of bits that were looked at
  doubles.
* `slots_tile`: any run of tickets that is as long as the queue uses every
  slot once, wherever it starts, also where the counter wraps.
-/

namespace SheepCoro.TaskQueue

/-- `unsigned`. -/
abbrev Word := BitVec 32

/-! ## The exchange of the two fields -/

/-- `details::remap_index<BITS>`. -/
def remapIndex (bits : Nat) (index : Word) : Word :=
  let mixMask := ((1 : Word) <<< bits) - 1
  let mix := (index ^^^ (index >>> bits)) &&& mixMask
  index ^^^ mix ^^^ (mix <<< bits)

/-- The bit that `remapIndex` puts at position `i`. -/
def swapField (bits i : Nat) : Nat :=
  if i < bits then i + bits else if i < 2 * bits then i - bits else i

theorem swapField_swapField (bits i : Nat) : swapField bits (swapField bits i) = i := by
  unfold swapField
  split_ifs <;> omega

theorem getLsbD_mixMask {bits i : Nat} (hbits : bits < 32) :
    (((1 : Word) <<< bits) - 1).getLsbD i = decide (i < bits) := by
  have hlt : 2 ^ bits < 2 ^ 32 := Nat.pow_lt_pow_right (by decide) hbits
  have hpos : 0 < 2 ^ bits := Nat.two_pow_pos bits
  have hnat : (((1 : Word) <<< bits) - 1).toNat = 2 ^ bits - 1 := by
    have hone : ((1 : Word) <<< bits).toNat = 2 ^ bits := by
      rw [BitVec.toNat_shiftLeft, Nat.shiftLeft_eq]
      rw [show (1 : Word).toNat = 1 from rfl, Nat.one_mul, Nat.mod_eq_of_lt hlt]
    rw [BitVec.toNat_sub, hone, show (1 : Word).toNat = 1 from rfl]
    omega
  rw [← BitVec.testBit_toNat, hnat, Nat.testBit_two_pow_sub_one]

/-- Every bit of the result is a bit of the index. -/
theorem getLsbD_remapIndex {bits : Nat} (hbits : 2 * bits ≤ 32) (index : Word) {i : Nat}
    (hi : i < 32) : (remapIndex bits index).getLsbD i = index.getLsbD (swapField bits i) := by
  unfold remapIndex swapField
  by_cases hzero : bits = 0
  · subst hzero
    simp
  have hlt : bits < 32 := by omega
  simp only [BitVec.getLsbD_xor, BitVec.getLsbD_shiftLeft, BitVec.getLsbD_and,
    BitVec.getLsbD_ushiftRight, hi, decide_true, Bool.true_and]
  rw [getLsbD_mixMask hlt, getLsbD_mixMask hlt]
  split_ifs with hlow hmid
  · simp [hlow, Nat.add_comm]
  · have hback : bits + (i - bits) = i := by omega
    have hfield : i - bits < bits := by omega
    simp [hlow, hfield, hback, Bool.xor_comm]
  · have hfield : ¬ i - bits < bits := by omega
    simp [hlow, hfield]

/-- The exchange is its own inverse. -/
theorem remapIndex_remapIndex {bits : Nat} (hbits : 2 * bits ≤ 32) (index : Word) :
    remapIndex bits (remapIndex bits index) = index := by
  apply BitVec.eq_of_getLsbD_eq
  intro i hi
  have hswap : swapField bits i < 32 := by
    unfold swapField
    split_ifs <;> omega
  rw [getLsbD_remapIndex hbits _ hi, getLsbD_remapIndex hbits _ hswap, swapField_swapField]

/-- An index into an array that has room for both fields stays one. -/
theorem remapIndex_lt {bits k : Nat} (hk : 2 * bits ≤ k) (hk32 : k ≤ 32) {index : Word}
    (hlt : index.toNat < 2 ^ k) : (remapIndex bits index).toNat < 2 ^ k := by
  apply Nat.lt_pow_two_of_testBit
  intro i hi
  rw [BitVec.testBit_toNat]
  by_cases h32 : i < 32
  · rw [getLsbD_remapIndex (by omega) _ h32]
    have hfix : swapField bits i = i := by
      unfold swapField
      split_ifs <;> omega
    rw [hfix, ← BitVec.testBit_toNat]
    exact Nat.testBit_lt_two_pow (Nat.lt_of_lt_of_le hlt (Nat.pow_le_pow_right (by decide) hi))
  · exact BitVec.getLsbD_of_ge _ _ (by omega)

/-! ## The size of the queue -/

/-- `details::or_equal`, by the shifts that it gets. -/
def orEqual (x : Word) : List Nat → Word
  | [] => x
  | u :: rest => orEqual (x ||| (x >>> u)) rest

/-- `details::round_up_to_power_of_2` for 32 bits. -/
def roundUpToPowerOf2 (a : Word) : Word :=
  orEqual (a - 1) [1, 2, 4, 8, 16] + 1

/-- Each bit of `y` is set where one of the next `w` bits of `x` is. -/
def Window (x y : Word) (w : Nat) : Prop :=
  ∀ i, y.getLsbD i = true ↔ ∃ j < w, x.getLsbD (i + j) = true

/-- One step doubles the window. -/
theorem window_orEqual {x y : Word} {w : Nat} (h : Window x y w) :
    Window x (y ||| (y >>> w)) (2 * w) := by
  intro i
  rw [BitVec.getLsbD_or, BitVec.getLsbD_ushiftRight, Bool.or_eq_true, h i, h (w + i)]
  constructor
  · rintro (⟨j, hj, hbit⟩ | ⟨j, hj, hbit⟩)
    · exact ⟨j, by omega, hbit⟩
    · exact ⟨w + j, by omega, by rwa [show i + (w + j) = w + i + j by omega]⟩
  · rintro ⟨j, hj, hbit⟩
    by_cases hlow : j < w
    · exact .inl ⟨j, hlow, hbit⟩
    · exact .inr ⟨j - w, by omega, by rwa [show w + i + (j - w) = i + j by omega]⟩

theorem window_one (x : Word) : Window x x 1 := by
  intro i
  constructor
  · intro hbit
    exact ⟨0, by omega, hbit⟩
  · rintro ⟨j, hj, hbit⟩
    rwa [show i + j = i by omega] at hbit

/-- A bit is set in the smeared word if it is not above the highest one. -/
theorem getLsbD_smear (x : Word) (i : Nat) :
    (orEqual x [1, 2, 4, 8, 16]).getLsbD i = true ↔ i < Nat.size x.toNat := by
  have hwindow : Window x (orEqual x [1, 2, 4, 8, 16]) 32 :=
    window_orEqual (window_orEqual (window_orEqual (window_orEqual
      (window_orEqual (window_one x)))))
  rw [hwindow i, Nat.lt_size]
  constructor
  · rintro ⟨j, _, hbit⟩
    rw [← BitVec.testBit_toNat] at hbit
    have hge := Nat.ge_two_pow_of_testBit hbit
    exact Nat.le_trans (Nat.pow_le_pow_right (by decide) (Nat.le_add_right i j)) hge
  · intro hge
    obtain ⟨m, hm, hbit⟩ := Nat.exists_ge_and_testBit_of_ge_two_pow hge
    have h32 : m < 32 := by
      by_contra hlarge
      rw [BitVec.testBit_toNat, BitVec.getLsbD_of_ge _ _ (by omega)] at hbit
      cases hbit
    refine ⟨m - i, by omega, ?_⟩
    rw [← BitVec.testBit_toNat, show i + (m - i) = m by omega]
    exact hbit

theorem size_le_32 (x : Word) : Nat.size x.toNat ≤ 32 :=
  Nat.size_le.mpr x.isLt

theorem toNat_smear (x : Word) :
    (orEqual x [1, 2, 4, 8, 16]).toNat = 2 ^ Nat.size x.toNat - 1 := by
  apply Nat.eq_of_testBit_eq
  intro i
  rw [Nat.testBit_two_pow_sub_one, BitVec.testBit_toNat, Bool.eq_iff_iff, getLsbD_smear]
  simp

/-- The result is the power of two above `a - 1`.  It wraps to zero where it
does not fit. -/
theorem toNat_roundUpToPowerOf2 (a : Word) :
    (roundUpToPowerOf2 a).toNat = 2 ^ Nat.size (a - 1).toNat % 2 ^ 32 := by
  have hpos := Nat.two_pow_pos (Nat.size (a - 1).toNat)
  unfold roundUpToPowerOf2
  rw [BitVec.toNat_add, toNat_smear]
  rw [show (1 : Word).toNat = 1 from rfl, Nat.sub_add_cancel hpos]

/-- `SHUFFLE_BITS`: the 64 states of a cache line. -/
def shuffleBits : Nat := 6

/-- `size_`, as the constructor of `AtomicQueueB2` computes it from its
argument. -/
def queueSize (size : Word) : Word :=
  let least := (1 : Word) <<< (shuffleBits * 2)
  if roundUpToPowerOf2 size < least then least else roundUpToPowerOf2 size

theorem toNat_queueSize (size : Word) :
    (queueSize size).toNat = max (2 ^ Nat.size (size - 1).toNat % 2 ^ 32) (2 ^ 12) := by
  have hleast : ((1 : Word) <<< (shuffleBits * 2)).toNat = 2 ^ 12 := by decide
  rw [← toNat_roundUpToPowerOf2]
  unfold queueSize
  simp only [BitVec.lt_def, hleast]
  split_ifs with hlt
  · rw [hleast]
    omega
  · omega

/-- The size is a power of two, of at least 4096. -/
theorem exists_queueSize_eq (size : Word) :
    ∃ k, 12 ≤ k ∧ k ≤ 31 ∧ (queueSize size).toNat = 2 ^ k := by
  rw [toNat_queueSize]
  by_cases h32 : Nat.size (size - 1).toNat = 32
  · refine ⟨12, by omega, by omega, ?_⟩
    rw [h32]
    decide
  · have hle := size_le_32 (size - 1)
    have hlt : 2 ^ Nat.size (size - 1).toNat < 2 ^ 32 :=
      Nat.pow_lt_pow_right (by decide) (by omega)
    rw [Nat.mod_eq_of_lt hlt]
    by_cases hsmall : Nat.size (size - 1).toNat ≤ 12
    · refine ⟨12, by omega, by omega, ?_⟩
      exact max_eq_right (Nat.pow_le_pow_right (by decide) hsmall)
    · refine ⟨Nat.size (size - 1).toNat, by omega, by omega, ?_⟩
      exact max_eq_left (Nat.pow_le_pow_right (by decide) (by omega))

/-- The queue has the room that was asked for, and no more than it needs. -/
theorem queueSize_isLeast {size : Word} (hsize : size.toNat ≤ 2 ^ 31) :
    IsLeast {m | (∃ k, m = 2 ^ k) ∧ size.toNat ≤ m ∧ 2 ^ 12 ≤ m} (queueSize size).toNat := by
  have hround : size.toNat ≤ (queueSize size).toNat ∧
      ∀ k, size.toNat ≤ 2 ^ k → 2 ^ 12 ≤ 2 ^ k → (queueSize size).toNat ≤ 2 ^ k := by
    rw [toNat_queueSize]
    by_cases hzero : size = 0
    · subst hzero
      refine ⟨Nat.zero_le _, fun k _ hk => ?_⟩
      have hval : max (2 ^ Nat.size ((0 : Word) - 1).toNat % 2 ^ 32) (2 ^ 12) = 2 ^ 12 := by
        decide
      rwa [hval]
    · have hpred : (size - 1).toNat = size.toNat - 1 := by
        have hpos : size.toNat ≠ 0 := fun h => hzero (BitVec.eq_of_toNat_eq h)
        rw [BitVec.toNat_sub, show (1 : Word).toNat = 1 from rfl]
        omega
      have hpos : 0 < size.toNat := by
        have : size.toNat ≠ 0 := fun h => hzero (BitVec.eq_of_toNat_eq h)
        omega
      have hle : Nat.size (size.toNat - 1) ≤ 31 := Nat.size_le.mpr (by omega)
      have hlt : 2 ^ Nat.size (size.toNat - 1) < 2 ^ 32 :=
        Nat.pow_lt_pow_right (by decide) (by omega)
      rw [hpred, Nat.mod_eq_of_lt hlt]
      constructor
      · have hself := Nat.lt_size_self (size.toNat - 1)
        exact Nat.le_trans (by omega) (Nat.le_max_left _ _)
      · intro k hk hk12
        apply max_le _ hk12
        apply Nat.pow_le_pow_right (by decide)
        exact Nat.size_le.mpr (by omega)
  obtain ⟨k, hk12, _, hk⟩ := exists_queueSize_eq size
  refine ⟨⟨⟨k, hk⟩, hround.1, ?_⟩, ?_⟩
  · rw [hk]
    exact Nat.pow_le_pow_right (by decide) hk12
  · rintro m ⟨⟨j, rfl⟩, hm, hm12⟩
    exact hround.2 j hm hm12

/-! ## The slots of the tickets -/

/-- What a counter shows after `n` increments. -/
def word (n : Nat) : Word :=
  BitVec.ofNat 32 n

/-- The index that `do_push` and `do_pop` compute from a ticket. -/
def slotOf (size ticket : Word) : Word :=
  remapIndex shuffleBits (ticket &&& (size - 1))

section Slots

variable {size : Word} {k : Nat}

/-- The mask takes a ticket modulo the size, and the wrap of the counter does
not show. -/
theorem toNat_masked (hk : k ≤ 31) (hsize : size.toNat = 2 ^ k) (n : Nat) :
    (word n &&& (size - 1)).toNat = n % 2 ^ k := by
  have hpos := Nat.two_pow_pos k
  have hlt : 2 ^ k < 2 ^ 32 := Nat.pow_lt_pow_right (by decide) (by omega)
  have hmask : (size - 1).toNat = 2 ^ k - 1 := by
    rw [BitVec.toNat_sub, hsize, show (1 : Word).toNat = 1 from rfl]
    omega
  have hdvd : 2 ^ k ∣ 2 ^ 32 := Nat.pow_dvd_pow 2 (by omega)
  rw [BitVec.toNat_and, hmask, Nat.and_two_pow_sub_one_eq_mod, word, BitVec.toNat_ofNat,
    Nat.mod_mod_of_dvd _ hdvd]

/-- Two tickets share a slot if they are equal modulo the size. -/
theorem slotOf_eq_iff (hk : k ≤ 31) (hsize : size.toNat = 2 ^ k) (m n : Nat) :
    slotOf size (word m) = slotOf size (word n) ↔ m % 2 ^ k = n % 2 ^ k := by
  unfold slotOf
  rw [← toNat_masked hk hsize m, ← toNat_masked hk hsize n, BitVec.toNat_inj]
  constructor
  · intro heq
    have hback := congrArg (remapIndex shuffleBits) heq
    rwa [remapIndex_remapIndex (by decide), remapIndex_remapIndex (by decide)] at hback
  · exact congrArg _

/-- The slot is one of the queue's. -/
theorem slotOf_lt (hk12 : 12 ≤ k) (hk : k ≤ 31) (hsize : size.toNat = 2 ^ k) (n : Nat) :
    slotOf size (word n) < size := by
  rw [BitVec.lt_def, hsize]
  apply remapIndex_lt (by simpa [shuffleBits] using hk12) (by omega)
  rw [toNat_masked hk hsize]
  exact Nat.mod_lt _ (Nat.two_pow_pos k)

/-- Every slot has a ticket in a run of tickets that is as long as the queue. -/
theorem exists_slotOf_eq (hk12 : 12 ≤ k) (hk : k ≤ 31) (hsize : size.toNat = 2 ^ k) (n : Nat)
    {i : Word} (hi : i < size) : ∃ t, n ≤ t ∧ t < n + 2 ^ k ∧ slotOf size (word t) = i := by
  have hpos := Nat.two_pow_pos k
  rw [BitVec.lt_def, hsize] at hi
  have hj : (remapIndex shuffleBits i).toNat < 2 ^ k :=
    remapIndex_lt (by simpa [shuffleBits] using hk12) (by omega) hi
  have hn := Nat.mod_lt n hpos
  -- The distance from `n` to the next ticket with the residue of `i`.
  refine ⟨n + ((remapIndex shuffleBits i).toNat + (2 ^ k - n % 2 ^ k)) % 2 ^ k,
    Nat.le_add_right _ _, Nat.add_lt_add_left (Nat.mod_lt _ hpos) n, ?_⟩
  unfold slotOf
  have hmasked : word (n + ((remapIndex shuffleBits i).toNat + (2 ^ k - n % 2 ^ k)) % 2 ^ k) &&&
      (size - 1) = remapIndex shuffleBits i := by
    apply BitVec.eq_of_toNat_eq
    rw [toNat_masked hk hsize, Nat.add_mod_mod]
    have hsum : n + ((remapIndex shuffleBits i).toNat + (2 ^ k - n % 2 ^ k)) =
        (remapIndex shuffleBits i).toNat + 2 ^ k * (n / 2 ^ k + 1) := by
      have hdiv := Nat.div_add_mod n (2 ^ k)
      rw [Nat.mul_add, Nat.mul_one]
      omega
    rw [hsum, Nat.add_mul_mod_self_left, Nat.mod_eq_of_lt hj]
  rw [hmasked, remapIndex_remapIndex (by decide)]

end Slots

/-- The constructor makes a queue of the least power of two that has the room
that was asked for.  Of any run of tickets of that length, each uses a slot of
its own, inside the arrays, and they use all of them. -/
theorem slots_tile (size : Word) (hsize : size.toNat ≤ 2 ^ 31) (n : Nat) :
    IsLeast {m | (∃ k, m = 2 ^ k) ∧ size.toNat ≤ m ∧ 2 ^ 12 ≤ m} (queueSize size).toNat ∧
      Set.BijOn (fun t => slotOf (queueSize size) (word t))
        (Set.Ico n (n + (queueSize size).toNat)) {i | i < queueSize size} := by
  obtain ⟨k, hk12, hk, hq⟩ := exists_queueSize_eq size
  refine ⟨queueSize_isLeast hsize, ?_, ?_, ?_⟩
  · intro t _
    exact slotOf_lt hk12 hk hq t
  · intro t ht t' ht' heq
    rw [Set.mem_Ico, hq] at ht ht'
    have hmod : t ≡ t' [MOD 2 ^ k] := (slotOf_eq_iff hk hq t t').mp heq
    apply hmod.eq_of_abs_lt
    rw [abs_lt]
    omega
  · intro i hi
    obtain ⟨t, hle, hlt, ht⟩ := exists_slotOf_eq hk12 hk hq n hi
    rw [← hq] at hlt
    exact ⟨t, ⟨hle, hlt⟩, ht⟩

/-- The queue of an engine, `config::kQueCap`, where the counter wraps. -/
theorem slots_tile_at_wrap :
    (queueSize 16384).toNat = 16384 ∧
      Set.BijOn (fun t => slotOf (queueSize 16384) (word t))
        (Set.Ico (2 ^ 32 - 1) (2 ^ 32 - 1 + (queueSize 16384).toNat))
        {i | i < queueSize 16384} :=
  ⟨by decide, (slots_tile 16384 (by decide) (2 ^ 32 - 1)).2⟩

end SheepCoro.TaskQueue
