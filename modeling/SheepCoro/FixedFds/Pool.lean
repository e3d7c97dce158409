import SheepCoro.Lib.History
import SheepCoro.Lib.Pool
import Mathlib.Data.List.Range

/-!
# Registered files

`marked_buffer` in `include/coro/marked_buffer.hpp`, the part of
`uring_proxy` that works on it, and `fixed_fds` in
`include/coro/io/base_io_type.hpp`, for one engine.

A slot is an index into `m_fds.data` and into the table that is registered
with the kernel.  The free slots are in a queue, the others are in the items
of the live `fixed_fds` objects.  The objects are those of `ι`, of which any
number is live at a time, and each gives back its own item.  A failing
`io_uring_register_files_update` ends the process, so an update that returns
has changed the table.

`owner` is the history of `assign`: the descriptor that an object has put
into the slot it holds.
-/

namespace SheepCoro.FixedFds

open Lib

/-- `config::kEnableFixfd`. -/
def kEnableFixfd : Bool := true

/-- `config::kFixFdArraySize`. -/
def kFixFdArraySize : Nat := 8

/-- `IOSQE_FIXED_FILE`. -/
def fixedFile : Nat := 1

/-- `marked_buffer::item`; `ptr` is the index of the element it points to. -/
structure Item where
  idx : Int
  ptr : Option Int
deriving DecidableEq

namespace Item

def valid (it : Item) : Bool := decide (0 ≤ it.idx)

/-- `invalid_fd_item`, and what `set_invalid` stores. -/
def invalid : Item := ⟨-1, none⟩

/-- The item of a slot. -/
def slot (k : Int) : Item := ⟨k, some k⟩

@[simp] theorem invalid_valid : invalid.valid = false := rfl

@[simp] theorem slot_idx (k : Int) : (slot k).idx = k := rfl

@[simp] theorem slot_ptr (k : Int) : (slot k).ptr = some k := rfl

theorem slot_valid {k : Int} (h : 0 ≤ k) : (slot k).valid = true := by
  simp [valid, h]

end Item

/-- The members of `uring_proxy` behind the registered files, and the
kernel's table. -/
structure Uring where
  /-- `m_fds.data`. -/
  data : Int → Int
  /-- `m_fds.que`. -/
  que : List Int
  /-- `m_null_fds`. -/
  nullFds : Int → Int
  table : Int → Int

namespace Uring

/-- `init` with the descriptors that `get_null_fd` has returned. -/
def init (n : Nat) (nullFds : Int → Int) : Uring where
  data := nullFds
  que := (List.range n).map Int.ofNat
  nullFds := nullFds
  table := nullFds

/-- `marked_buffer::borrow`. -/
def borrow (u : Uring) : Item × Uring :=
  match u.que with
  | [] => (.invalid, u)
  | k :: ks => (.slot k, { u with que := ks })

/-- `marked_buffer::return_back`. -/
def returnBack (u : Uring) (it : Item) : Uring :=
  if it.valid then { u with que := u.que ++ [it.idx] } else u

/-- `update_register_fixed_fds` for one slot. -/
def updateRegister (u : Uring) (index : Int) : Uring :=
  if kEnableFixfd then { u with table := Function.update u.table index (u.data index) } else u

def getFixedFd (u : Uring) : Item × Uring :=
  if kEnableFixfd then u.borrow else (.invalid, u)

def backFixedFd (u : Uring) (it : Item) : Uring :=
  if it.valid then
    (({ u with data := Function.update u.data it.idx (u.nullFds it.idx) }).updateRegister
      it.idx).returnBack it
  else u

/-- `*(item.ptr) = fd`. -/
def write (u : Uring) (ptr : Option Int) (fd : Int) : Uring :=
  match ptr with
  | some k => { u with data := Function.update u.data k fd }
  | none => u

end Uring

/-- `fixed_fds::assign`: the pool, `fd` and `flag` after it. -/
def assign (u : Uring) (item : Item) (fd : Int) (flag : Nat) : Uring × Int × Nat :=
  if item.valid then
    ((u.write item.ptr fd).updateRegister item.idx, item.idx, flag ||| fixedFile)
  else (u, fd, flag)

/-- `fixed_fds::return_back`: the pool and the item after it. -/
def returnBack (u : Uring) (item : Item) : Uring × Item :=
  if item.valid then (u.backFixedFd item, .invalid) else (u, item)

structure State (ι : Type) where
  uring : Uring
  /-- The items of the live objects. -/
  objs : ι → Option Item
  owner : ι → Option Int

/-- What an object does.  The caller of `assign` passes its own descriptor and
flags. -/
inductive Label (ι : Type)
  | construct (i : ι)
  | assign (i : ι) (fd : Int) (flag : Nat)
  | returnBack (i : ι)
  | destruct (i : ι)

variable {ι : Type} [DecidableEq ι]

def step (s : State ι) : Label ι → Option (State ι)
  | .construct i =>
    match s.objs i with
    | some _ => none
    | none =>
      some { s with
        uring := s.uring.getFixedFd.2
        objs := Function.update s.objs i (some s.uring.getFixedFd.1)
        owner := Function.update s.owner i none }
  | .assign i fd flag =>
    (s.objs i).map fun item =>
      { s with
        uring := (assign s.uring item fd flag).1
        owner := Function.update s.owner i (if item.valid then some fd else s.owner i) }
  | .returnBack i =>
    (s.objs i).map fun item =>
      { s with
        uring := (returnBack s.uring item).1
        objs := Function.update s.objs i (some (returnBack s.uring item).2)
        owner := Function.update s.owner i none }
  | .destruct i =>
    (s.objs i).map fun item =>
      { s with
        uring := (returnBack s.uring item).1
        objs := Function.update s.objs i none
        owner := Function.update s.owner i none }

/-- An engine with `n` slots, before any object is constructed. -/
def machine (n : Nat) (nullFds : Int → Int) : Machine (State ι) (Label ι) where
  init s := s = ⟨.init n nullFds, fun _ => none, fun _ => none⟩
  step := step

/-- The slot of an item. -/
def Item.index (it : Item) : Option Int :=
  if it.valid then some it.idx else none

/-- The slot that an object holds. -/
def State.held (s : State ι) (i : ι) : Option Int :=
  (s.objs i).bind Item.index

/-- The slots are shared out between the queue and the objects, and the four
places in which something is kept about a slot agree. -/
structure Inv (n : Nat) (nullFds : Int → Int) (s : State ι) : Prop where
  items : ∀ i item, s.objs i = some item → item = .invalid ∨ ∃ k, 0 ≤ k ∧ item = .slot k
  shares : Shares (fun k => 0 ≤ k ∧ k < (n : Int)) s.uring.que s.held
  nulls : s.uring.nullFds = nullFds
  synced : s.uring.table = s.uring.data
  free : ∀ k ∈ s.uring.que, s.uring.data k = s.uring.nullFds k
  owned : ∀ i k, s.held i = some k → s.uring.data k = (s.owner i).getD (s.uring.nullFds k)

section Lemmas

variable {n : Nat} {nullFds : Int → Int} {s s' : State ι} {i : ι} {it : Item} {k fd : Int}
  {flag : Nat}

@[simp] theorem Item.invalid_index : Item.invalid.index = none := rfl

theorem Item.slot_index (h : 0 ≤ k) : (Item.slot k).index = some k := by
  simp [Item.index, Item.slot_valid h]

/-- A store to the item of one object. -/
theorem held_update (u : Uring) (objs : ι → Option Item) (o : Option Item) (f : ι → Option Int) :
    State.held ⟨u, Function.update objs i o, f⟩ =
      Function.update (fun j => (objs j).bind Item.index) i (o.bind Item.index) := by
  funext j
  by_cases hj : j = i
  · subst hj
    simp [State.held]
  · simp [State.held, hj]

theorem held_of_ne {j : ι} (u : Uring) (objs : ι → Option Item) (o : Option Item)
    (f : ι → Option Int) (hj : j ≠ i) :
    State.held ⟨u, Function.update objs i o, f⟩ j = (objs j).bind Item.index := by
  rw [held_update, Function.update_of_ne hj]

omit [DecidableEq ι] in
theorem held_of_some (h : s.objs i = some it) : s.held i = it.index := by
  simp [State.held, h]

omit [DecidableEq ι] in
theorem held_of_none (h : s.objs i = none) : s.held i = none := by
  simp [State.held, h]

/-! What the operations do to the pool. -/

theorem getFixedFd_nil {u : Uring} (h : u.que = []) : u.getFixedFd = (.invalid, u) := by
  simp [Uring.getFixedFd, Uring.borrow, kEnableFixfd, h]

theorem getFixedFd_cons {u : Uring} {ks : List Int} (h : u.que = k :: ks) :
    u.getFixedFd = (.slot k, { u with que := ks }) := by
  simp [Uring.getFixedFd, Uring.borrow, kEnableFixfd, h]

theorem assign_invalid (u : Uring) : assign u .invalid fd flag = (u, fd, flag) := rfl

theorem assign_slot (u : Uring) (h : 0 ≤ k) :
    assign u (.slot k) fd flag =
      ({ u with
          data := Function.update u.data k fd
          table := Function.update u.table k fd }, k, flag ||| fixedFile) := by
  simp [assign, Item.slot_valid h, Uring.write, Uring.updateRegister, kEnableFixfd]

theorem returnBack_invalid (u : Uring) : returnBack u .invalid = (u, .invalid) := rfl

theorem returnBack_slot (u : Uring) (h : 0 ≤ k) :
    returnBack u (.slot k) =
      ({ u with
          data := Function.update u.data k (u.nullFds k)
          table := Function.update u.table k (u.nullFds k)
          que := u.que ++ [k] }, .invalid) := by
  simp [returnBack, Item.slot_valid h, Uring.backFixedFd, Uring.returnBack, Uring.updateRegister,
    kEnableFixfd]

/-- After `return_back` the object holds nothing. -/
theorem returnBack_index (u : Uring) : (returnBack u it).2.index = none := by
  unfold returnBack
  split_ifs with h
  · rfl
  · simp [Item.index, h]

/-! The invariant. -/

omit [DecidableEq ι] in
theorem Inv.init (n : Nat) (nullFds : Int → Int) :
    Inv n nullFds (⟨.init n nullFds, fun _ => none, fun _ => none⟩ : State ι) where
  items j item h := by cases h
  shares := by
    refine Shares.init ?_ ?_
    · exact List.nodup_range.map fun _ _ => Int.ofNat.inj
    · intro k
      simp only [Uring.init, List.mem_map, List.mem_range]
      constructor
      · rintro ⟨hpos, hlt⟩
        exact ⟨k.toNat, by omega, Int.toNat_of_nonneg hpos⟩
      · rintro ⟨m, hm, rfl⟩
        exact ⟨Int.natCast_nonneg m, Int.ofNat_lt.mpr hm⟩
  nulls := rfl
  synced := rfl
  free k _ := rfl
  owned j k h := by cases h

/-- An object borrows a slot, if there is one. -/
theorem Inv.construct (h : Inv n nullFds s) (hi : s.objs i = none) :
    Inv n nullFds ⟨s.uring.getFixedFd.2, Function.update s.objs i (some s.uring.getFixedFd.1),
      Function.update s.owner i none⟩ := by
  have hheld := held_of_none hi
  cases hq : s.uring.que with
  | nil =>
    rw [getFixedFd_nil hq]
    have hsame : State.held ⟨s.uring, Function.update s.objs i (some .invalid),
        Function.update s.owner i none⟩ = s.held := by
      rw [held_update]
      exact Function.update_eq_self_iff.mpr hheld.symm
    refine ⟨?_, ?_, h.nulls, h.synced, h.free, ?_⟩
    · intro j item hj
      rcases update_eq_iff.mp hj with ⟨_, hnew⟩ | ⟨_, hold⟩
      · exact .inl (Option.some.inj hnew).symm
      · exact h.items j item hold
    · rw [hsame]
      exact h.shares
    · intro j k hj
      rw [hsame] at hj
      have hji : j ≠ i := by
        rintro rfl
        rw [hheld] at hj
        cases hj
      show s.uring.data k = (Function.update s.owner i none j).getD (s.uring.nullFds k)
      rw [Function.update_of_ne hji]
      exact h.owned j k hj
  | cons k ks =>
    have hk : k ∈ s.uring.que := by simp [hq]
    have hpos : 0 ≤ k := ((h.shares.cover k).mpr (.inl hk)).1
    rw [getFixedFd_cons hq]
    have hlend : State.held ⟨{ s.uring with que := ks }, Function.update s.objs i (some (.slot k)),
        Function.update s.owner i none⟩ = Function.update s.held i (some k) := by
      rw [held_update, Option.bind_some, Item.slot_index hpos]
      rfl
    refine ⟨?_, ?_, h.nulls, h.synced, ?_, ?_⟩
    · intro j item hj
      rcases update_eq_iff.mp hj with ⟨_, hnew⟩ | ⟨_, hold⟩
      · exact .inr ⟨k, hpos, (Option.some.inj hnew).symm⟩
      · exact h.items j item hold
    · rw [hlend]
      have hshares := h.shares
      rw [hq] at hshares
      exact hshares.lend hheld
    · intro x hx
      exact h.free x (by rw [hq]; exact List.mem_cons_of_mem _ hx)
    · intro j x hj
      rw [hlend] at hj
      show s.uring.data x = (Function.update s.owner i none j).getD (s.uring.nullFds x)
      rcases update_eq_iff.mp hj with ⟨rfl, hnew⟩ | ⟨hji, hold⟩
      · cases hnew
        simp [h.free k hk]
      · rw [Function.update_of_ne hji]
        exact h.owned j x hold

/-- An object stores a descriptor into its slot. -/
theorem Inv.assign (h : Inv n nullFds s) (hi : s.objs i = some it) :
    Inv n nullFds { s with
      uring := (assign s.uring it fd flag).1
      owner := Function.update s.owner i (if it.valid then some fd else s.owner i) } := by
  rcases h.items i it hi with rfl | ⟨k, hpos, rfl⟩
  · rw [assign_invalid, Item.invalid_valid, if_neg Bool.false_ne_true, Function.update_eq_self]
    exact h
  · have hheld : s.held i = some k := by rw [held_of_some hi, Item.slot_index hpos]
    rw [assign_slot _ hpos, Item.slot_valid hpos, if_pos rfl]
    refine ⟨h.items, h.shares, h.nulls, ?_, ?_, ?_⟩
    · show Function.update s.uring.table k fd = Function.update s.uring.data k fd
      rw [h.synced]
    · intro x hx
      have hxk : x ≠ k := by
        rintro rfl
        exact h.shares.apart i x hheld hx
      show Function.update s.uring.data k fd x = s.uring.nullFds x
      rw [Function.update_of_ne hxk, h.free x hx]
    · intro j x hj
      show Function.update s.uring.data k fd x =
        (Function.update s.owner i (some fd) j).getD (s.uring.nullFds x)
      by_cases hji : j = i
      · subst hji
        have hxk : x = k := Option.some.inj (hj.symm.trans hheld)
        subst hxk
        simp
      · have hxk : x ≠ k := by
          rintro rfl
          exact hji (h.shares.single j i x hj hheld)
        rw [Function.update_of_ne hxk, Function.update_of_ne hji]
        exact h.owned j x hj

/-- An object gives its slot back, and stays or is destroyed. -/
theorem Inv.back {o : Option Item} (h : Inv n nullFds s) (hi : s.objs i = some it)
    (ho : o = none ∨ o = some (returnBack s.uring it).2) :
    Inv n nullFds ⟨(returnBack s.uring it).1, Function.update s.objs i o,
      Function.update s.owner i none⟩ := by
  have hnone : o.bind Item.index = none := by
    rcases ho with rfl | rfl
    · rfl
    · exact returnBack_index _
  have hitem : ∀ item, o = some item → item = .invalid := by
    intro item heq
    rcases ho with rfl | rfl
    · cases heq
    · rcases h.items i it hi with rfl | ⟨k, hpos, rfl⟩
      · exact (Option.some.inj heq).symm
      · rw [returnBack_slot _ hpos] at heq
        exact (Option.some.inj heq).symm
  have hdrop : ∀ u, State.held ⟨u, Function.update s.objs i o, Function.update s.owner i none⟩ =
      Function.update s.held i none := by
    intro u
    rw [held_update, hnone]
    rfl
  have hitems : ∀ j item, Function.update s.objs i o j = some item →
      item = .invalid ∨ ∃ k, 0 ≤ k ∧ item = .slot k := by
    intro j item hj
    rcases update_eq_iff.mp hj with ⟨_, hnew⟩ | ⟨_, hold⟩
    · exact .inl (hitem item hnew)
    · exact h.items j item hold
  have hothers : ∀ j x, Function.update s.held i none j = some x → j ≠ i ∧ s.held j = some x := by
    intro j x hj
    rcases update_eq_iff.mp hj with ⟨_, hnew⟩ | hold
    · cases hnew
    · exact hold
  rcases h.items i it hi with rfl | ⟨k, hpos, rfl⟩
  · rw [returnBack_invalid]
    have hsame : Function.update s.held i none = s.held :=
      Function.update_eq_self_iff.mpr (held_of_some hi).symm
    refine ⟨hitems, ?_, h.nulls, h.synced, h.free, ?_⟩
    · rw [hdrop, hsame]
      exact h.shares
    · intro j x hj
      rw [hdrop] at hj
      obtain ⟨hji, hold⟩ := hothers j x hj
      show s.uring.data x = (Function.update s.owner i none j).getD (s.uring.nullFds x)
      rw [Function.update_of_ne hji]
      exact h.owned j x hold
  · have hheld : s.held i = some k := by rw [held_of_some hi, Item.slot_index hpos]
    rw [returnBack_slot _ hpos]
    refine ⟨hitems, ?_, h.nulls, ?_, ?_, ?_⟩
    · rw [hdrop]
      exact h.shares.back hheld
    · show Function.update s.uring.table k _ = Function.update s.uring.data k _
      rw [h.synced]
    · intro x hx
      show Function.update s.uring.data k (s.uring.nullFds k) x = s.uring.nullFds x
      by_cases hxk : x = k
      · rw [hxk, Function.update_self]
      · have hmem : x ∈ s.uring.que := by simpa [hxk] using hx
        rw [Function.update_of_ne hxk, h.free x hmem]
    · intro j x hj
      rw [hdrop] at hj
      obtain ⟨hji, hold⟩ := hothers j x hj
      have hxk : x ≠ k := by
        rintro rfl
        exact hji (h.shares.single j i x hold hheld)
      show Function.update s.uring.data k (s.uring.nullFds k) x =
        (Function.update s.owner i none j).getD (s.uring.nullFds x)
      rw [Function.update_of_ne hxk, Function.update_of_ne hji]
      exact h.owned j x hold

theorem Inv.step {l : Label ι} (h : Inv n nullFds s) (hs : step s l = some s') :
    Inv n nullFds s' := by
  cases l with
  | construct i =>
    simp only [FixedFds.step] at hs
    split at hs
    · cases hs
    · cases hs
      exact h.construct ‹_›
  | assign i fd flag =>
    obtain ⟨item, hi, rfl⟩ := Option.map_eq_some_iff.mp hs
    exact h.assign hi
  | returnBack i =>
    obtain ⟨item, hi, rfl⟩ := Option.map_eq_some_iff.mp hs
    exact h.back hi (.inr rfl)
  | destruct i =>
    obtain ⟨item, hi, rfl⟩ := Option.map_eq_some_iff.mp hs
    exact h.back hi (.inl rfl)

theorem inv (h : (machine n nullFds).Reachable s) : Inv n nullFds s := by
  refine h.invariant (fun s h0 => ?_) fun s l s' _ hi hs => hi.step hs
  subst h0
  exact .init n nullFds

/-! What a step does to the objects, for callers that hold one of them. -/

/-- The object that takes the step. -/
def Label.obj : Label ι → ι
  | .construct i => i
  | .assign i _ _ => i
  | .returnBack i => i
  | .destruct i => i

/-- The other objects are left alone. -/
theorem step_others {l : Label ι} {j : ι} (hs : step s l = some s') (hj : j ≠ l.obj) :
    s'.held j = s.held j ∧ s'.owner j = s.owner j := by
  cases l with
  | construct i =>
    simp only [step] at hs
    split at hs
    · cases hs
    · cases hs
      exact ⟨held_of_ne _ _ _ _ hj, Function.update_of_ne hj ..⟩
  | assign i fd flag =>
    obtain ⟨item, _, rfl⟩ := Option.map_eq_some_iff.mp hs
    exact ⟨rfl, Function.update_of_ne hj ..⟩
  | returnBack i =>
    obtain ⟨item, _, rfl⟩ := Option.map_eq_some_iff.mp hs
    exact ⟨held_of_ne _ _ _ _ hj, Function.update_of_ne hj ..⟩
  | destruct i =>
    obtain ⟨item, _, rfl⟩ := Option.map_eq_some_iff.mp hs
    exact ⟨held_of_ne _ _ _ _ hj, Function.update_of_ne hj ..⟩

/-- A new object holds what the queue gave it. -/
theorem construct_held (hs : step s (.construct i) = some s') (hi : s'.objs i = some it) :
    s'.held i = it.index ∧ s'.owner i = none := by
  refine ⟨held_of_some hi, ?_⟩
  simp only [step] at hs
  split at hs
  · cases hs
  · cases hs
    exact Function.update_self ..

theorem assign_held (hs : step s (.assign i fd flag) = some s') (hi : s.objs i = some it) :
    s'.held i = s.held i ∧ s'.owner i = if it.valid then some fd else s.owner i := by
  obtain ⟨item, hitem, rfl⟩ := Option.map_eq_some_iff.mp hs
  cases hi.symm.trans hitem
  exact ⟨rfl, Function.update_self ..⟩

/-- An object that gives its slot back holds nothing. -/
theorem returnBack_held (hs : step s (.returnBack i) = some s') : s'.held i = none := by
  obtain ⟨item, _, rfl⟩ := Option.map_eq_some_iff.mp hs
  rw [held_of_some (Function.update_self ..)]
  exact returnBack_index _

theorem destruct_held (hs : step s (.destruct i) = some s') : s'.held i = none := by
  obtain ⟨item, _, rfl⟩ := Option.map_eq_some_iff.mp hs
  exact held_of_none (Function.update_self ..)

omit [DecidableEq ι] in
/-- An object without a slot assigns nothing. -/
theorem Inv.assign_without (h : Inv n nullFds s) (hi : s.objs i = some it)
    (hheld : s.held i = none) : FixedFds.assign s.uring it fd flag = (s.uring, fd, flag) := by
  rcases h.items i it hi with rfl | ⟨k, hpos, rfl⟩
  · exact assign_invalid _
  · rw [held_of_some hi, Item.slot_index hpos] at hheld
    cases hheld

/-- An object that is constructed when the queue is empty has no slot. -/
theorem construct_exhausted (hq : s.uring.que = []) (hs : step s (.construct i) = some s') :
    s'.uring = s.uring ∧ s'.objs i = some .invalid := by
  simp only [step] at hs
  split at hs
  · cases hs
  · cases hs
    rw [getFixedFd_nil hq]
    exact ⟨rfl, Function.update_self ..⟩

end Lemmas

/-- The pool is sound in every run.  The free slots and the held ones are the
slots of the table, each once; the table is `m_fds.data`; a free slot has its
own null descriptor, and a held one what its object has assigned.  An object
that found the queue empty, or has given its slot back, assigns nothing. -/
theorem pool_sound {n : Nat} {nullFds : Int → Int} {s : State ι}
    (h : (machine n nullFds).Reachable s) :
    s.uring.que.Nodup ∧
      (∀ k : Int, 0 ≤ k ∧ k < n ↔ k ∈ s.uring.que ∨ ∃ i, s.held i = some k) ∧
      (∀ i k, s.held i = some k → k ∉ s.uring.que) ∧
      (∀ i j k, s.held i = some k → s.held j = some k → i = j) ∧
      s.uring.table = s.uring.data ∧
      (∀ k ∈ s.uring.que, s.uring.data k = nullFds k) ∧
      (∀ i k fd, s.held i = some k → s.owner i = some fd → s.uring.data k = fd) ∧
      (∀ i s', s.uring.que = [] → step s (.construct i) = some s' →
        s'.uring = s.uring ∧ s'.objs i = some .invalid ∧ s'.held i = none) ∧
      ∀ i it fd flag, s.objs i = some it → s.held i = none →
        assign s.uring it fd flag = (s.uring, fd, flag) := by
  have hinv := inv h
  refine ⟨hinv.shares.nodup, hinv.shares.cover, hinv.shares.apart, hinv.shares.single,
    hinv.synced, ?_, ?_, ?_, ?_⟩
  · intro k hk
    rw [hinv.free k hk, hinv.nulls]
  · intro i k fd hheld howner
    rw [hinv.owned i k hheld, howner, Option.getD_some]
  · intro i s' hq hs
    obtain ⟨huring, hobj⟩ := construct_exhausted hq hs
    exact ⟨huring, hobj, held_of_some hobj⟩
  · intro i it fd flag hi hheld
    exact hinv.assign_without hi hheld

/-- One slot and two objects: the second one finds the queue empty. -/
theorem pool_sound_two :
    ∃ s : State Bool, (machine 1 fun _ => 5).Reachable s ∧ s.held false = some 0 ∧
      s.held true = none ∧ s.uring.table 0 = 7 ∧
      (∀ k : Int, 0 ≤ k ∧ k < (1 : Nat) ↔ k ∈ s.uring.que ∨ ∃ i, s.held i = some k) := by
  let test (s : State Bool) : Bool :=
    decide (s.held false = some 0 ∧ s.held true = none ∧ s.uring.table 0 = 7)
  obtain ⟨s, hs, htest⟩ := Machine.reachable_of_run (M := machine 1 fun _ => 5)
    (s := ⟨.init 1 fun _ => 5, fun _ => none, fun _ => none⟩)
    (l := [.construct false, .assign false 7 0, .construct true, .assign true 8 0])
    (p := test) rfl (by decide)
  obtain ⟨hfirst, hsecond, htable⟩ := of_decide_eq_true htest
  exact ⟨s, hs, hfirst, hsecond, htable, (pool_sound hs).2.1⟩

end SheepCoro.FixedFds
