import Mathlib.Logic.Function.Basic
import Mathlib.Data.List.Nodup

/-!
# Intrusive singly linked chains

A node carries its own link, so a heap of nodes is a function `next` from a
node to the node behind it, and a list is a head pointer.  `Chain next p xs`
says that following the links from `p` visits exactly `xs` and then reaches
the null pointer.  The list is determined by the links (`Chain.unique`), and
a chain never visits a node twice (`Chain.nodup`): both follow from the null
pointer at its end.

A store to the link of one node is `Function.update`.  `Chain.update` is the
frame rule: a chain that does not contain the node is not changed.
`Chain.snoc` appends a node behind the last one, which is how a queue with a
tail pointer grows.
-/

namespace Lib

variable {α : Type*}

/-- Following `next` from `p` visits exactly the nodes of the list. -/
def Chain (next : α → Option α) : Option α → List α → Prop
  | p, [] => p = none
  | p, x :: xs => p = some x ∧ Chain next (next x) xs

namespace Chain

variable {next next' : α → Option α} {p : Option α} {x : α} {xs ys : List α}

@[simp] theorem nil_iff : Chain next p [] ↔ p = none := Iff.rfl

@[simp] theorem cons_iff :
    Chain next p (x :: xs) ↔ p = some x ∧ Chain next (next x) xs := Iff.rfl

@[simp] theorem none_iff : Chain next none xs ↔ xs = [] := by
  cases xs <;> simp

theorem some_iff : Chain next (some x) ys ↔ ∃ xs, ys = x :: xs ∧ Chain next (next x) xs := by
  cases ys with
  | nil => simp
  | cons y ys =>
    constructor
    · rintro ⟨hy, hys⟩
      cases hy
      exact ⟨ys, rfl, hys⟩
    · rintro ⟨xs, hxs, hc⟩
      cases hxs
      exact ⟨rfl, hc⟩

/-- The links determine the list. -/
theorem unique : ∀ {xs ys : List α} {p : Option α},
    Chain next p xs → Chain next p ys → xs = ys
  | [], _, _, hxs, hys => by
    rw [nil_iff] at hxs
    rw [hxs, none_iff] at hys
    exact hys.symm
  | x :: xs, ys, _, hxs, hys => by
    obtain ⟨rfl, hxs⟩ := hxs
    obtain ⟨zs, rfl, hzs⟩ := some_iff.mp hys
    rw [unique hxs hzs]

/-- Every suffix of a chain is a chain from its own first node. -/
theorem suffix : ∀ {xs : List α} {p : Option α}, Chain next p (xs ++ x :: ys) →
    Chain next (some x) (x :: ys)
  | [], _, h => ⟨rfl, h.2⟩
  | _ :: _, _, h => suffix h.2

/-- A chain ends at null, so it visits no node twice: the two suffixes from a
repeated node would have to be equal. -/
theorem nodup : ∀ {xs : List α} {p : Option α}, Chain next p xs → xs.Nodup
  | [], _, _ => List.nodup_nil
  | x :: xs, _, h => by
    refine List.nodup_cons.mpr ⟨fun hmem => ?_, nodup h.2⟩
    obtain ⟨as, bs, hsplit⟩ := List.append_of_mem hmem
    have hlong : Chain next (some x) (x :: xs) := ⟨rfl, h.2⟩
    have hshort : Chain next (some x) (x :: bs) := suffix (hsplit ▸ h.2)
    have hlen := congrArg List.length (unique hlong hshort)
    rw [hsplit] at hlen
    simp only [List.length_cons, List.length_append] at hlen
    omega

/-- Only the links of the visited nodes matter. -/
theorem congr : ∀ {xs : List α} {p : Option α}, (∀ y ∈ xs, next' y = next y) →
    Chain next p xs → Chain next' p xs
  | [], _, _, h => h
  | x :: xs, _, hn, h => by
    refine ⟨h.1, ?_⟩
    rw [hn x (List.mem_cons_self ..)]
    exact congr (fun y hy => hn y (List.mem_cons_of_mem _ hy)) h.2

/-- The last node has a null link. -/
theorem next_getLast : ∀ {xs : List α} {p : Option α}, Chain next p xs →
    xs.getLast? = some x → next x = none
  | [], _, _, hx => by cases hx
  | [y], _, h, hx => by
    cases hx
    exact h.2
  | _ :: y :: xs, _, h, hx => by
    rw [List.getLast?_cons_cons] at hx
    exact next_getLast h.2 hx

/-- A chain without nodes has no first node and no last one. -/
theorem head_eq_none_iff (h : Chain next p xs) : p = none ↔ xs.getLast? = none := by
  cases xs with
  | nil => simpa using h
  | cons y ys => simp [h.1]

section Update

variable [DecidableEq α] {a : α} {v : Option α}

/-- A store to the link of a node outside the chain does not change it. -/
theorem update (ha : a ∉ xs) (h : Chain next p xs) :
    Chain (Function.update next a v) p xs := by
  refine h.congr fun y hy => Function.update_of_ne ?_ _ _
  rintro rfl
  exact ha hy

/-- The node whose link is stored becomes the new head. -/
theorem push (ha : a ∉ xs) (h : Chain next p xs) :
    Chain (Function.update next a p) (some a) (a :: xs) := by
  refine ⟨rfl, ?_⟩
  rw [Function.update_self]
  exact h.update ha

/-- A node with a null link is stored behind the last one. -/
theorem snoc {t : α} : ∀ {xs : List α} {p : Option α}, Chain next p (xs ++ [t]) →
    a ∉ xs ++ [t] → next a = none →
    Chain (Function.update next t (some a)) p (xs ++ [t, a])
  | [], _, h, ha, hn => by
    have hat : a ≠ t := by simpa using ha
    refine ⟨h.1, ?_, ?_⟩
    · rw [Function.update_self]
    · rw [Function.update_of_ne hat]
      exact hn
  | x :: xs, _, h, ha, hn => by
    have hx : x ≠ t := fun hxt => (List.nodup_cons.mp h.nodup).1 (by simp [hxt])
    refine ⟨h.1, ?_⟩
    rw [Function.update_of_ne hx]
    exact snoc h.2 (fun hmem => ha (List.mem_cons_of_mem _ hmem)) hn

/-- A list without repetitions can be laid out as a chain. -/
theorem exists_links : ∀ {xs : List α}, xs.Nodup →
    ∃ next : α → Option α, Chain next xs.head? xs
  | [], _ => ⟨fun _ => none, rfl⟩
  | x :: xs, h => by
    obtain ⟨hx, hxs⟩ := List.nodup_cons.mp h
    obtain ⟨next, hnext⟩ := exists_links hxs
    exact ⟨Function.update next x xs.head?, hnext.push hx⟩

end Update

end Chain

end Lib
