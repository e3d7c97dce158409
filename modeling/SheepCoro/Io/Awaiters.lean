import SheepCoro.Lib.Update
import SheepCoro.Io.Model
import Mathlib.Data.List.Perm.Basic

/-!
# Entries, awaiters and coroutines

`Awaiters` says what the three have to do with each other: an entry that was
not handled yet leads to the awaiter that was constructed for it, which has no
result so far, and whoever is suspended there is neither in the task queue nor
running.

It speaks of lists of entries and coroutines, and not of a state, because a
step of the context only moves an entry from one queue to the next or a handle
from the task queue to an `exec_task` call.  There is one lemma for each thing
that happens to an awaiter: it is constructed, awaited, completed, and read.
-/

namespace SheepCoro.Io

open Lib

open scoped List

/-- If the coroutine is suspended at an awaiter, then that has its result. -/
def Readable (mem : Nat → Option Awaiter) (susp : Nat → Option Nat) (h : Nat) : Prop :=
  ∀ addr aw, susp h = some addr → mem addr = some aw → aw.info.result ≠ none

structure Awaiters (mem : Nat → Option Awaiter) (susp : Nat → Option Nat) (loose : List Nat)
    (made : List Request) (waiting : List Entry) (tokens : List Nat) : Prop where
  distinct : (waiting.map Entry.addr).Nodup
  alive : ∀ e ∈ waiting, ∃ aw, mem e.addr = some aw ∧ aw.op = e.op ∧ aw.info.result = none
  owed : ∀ addr aw, mem addr = some aw → aw.info.result = none → ∃ e ∈ waiting, e.addr = addr
  request : ∀ addr aw, mem addr = some aw → ∃ req, made[aw.op]? = some req ∧
    aw.info.cb = req.info.cb ∧ aw.info.data = req.info.data
  unawaited : ∀ addr aw, mem addr = some aw → aw.info.handle = none → addr ∈ loose
  suspended : ∀ h addr, susp h = some addr ↔ ∃ aw, mem addr = some aw ∧ aw.info.handle = some h
  once : tokens.Nodup
  written : ∀ h ∈ tokens, Readable mem susp h

namespace Awaiters

variable {mem : Nat → Option Awaiter} {susp : Nat → Option Nat} {loose : List Nat}
  {made : List Request} {waiting waiting' : List Entry} {tokens tokens' : List Nat}
  {addr h : Nat} {aw : Awaiter}

/-- Entries go from one queue to another. -/
theorem perm (hinv : Awaiters mem susp loose made waiting tokens) (hperm : waiting' ~ waiting) :
    Awaiters mem susp loose made waiting' tokens where
  distinct := (hperm.map Entry.addr).nodup_iff.mpr hinv.distinct
  alive e he := hinv.alive e (hperm.mem_iff.mp he)
  owed addr aw haw hres := by
    obtain ⟨e, he, haddr⟩ := hinv.owed addr aw haw hres
    exact ⟨e, hperm.mem_iff.mpr he, haddr⟩
  request := hinv.request
  unawaited := hinv.unawaited
  suspended := hinv.suspended
  once := hinv.once
  written := hinv.written

theorem readable_of_none (hnone : susp h = none) : Readable mem susp h := by
  intro addr aw hsusp
  rw [hnone] at hsusp
  cases hsusp

/-- Coroutines are submitted, are executed, or stop. -/
theorem retoken (hinv : Awaiters mem susp loose made waiting tokens) (hnodup : tokens'.Nodup)
    (hmem : ∀ h ∈ tokens', h ∈ tokens ∨ Readable mem susp h) :
    Awaiters mem susp loose made waiting tokens' where
  distinct := hinv.distinct
  alive := hinv.alive
  owed := hinv.owed
  request := hinv.request
  unawaited := hinv.unawaited
  suspended := hinv.suspended
  once := hnodup
  written := by
    intro h hh
    rcases hmem h hh with hold | hreadable
    · exact hinv.written h hold
    · exact hreadable

/-- The coroutine that is suspended at an awaiter without a result is not
going to run. -/
theorem asleep (hinv : Awaiters mem susp loose made waiting tokens) (haw : mem addr = some aw)
    (hres : aw.info.result = none) (hh : aw.info.handle = some h) : h ∉ tokens := by
  intro htoken
  have hsusp := (hinv.suspended h addr).mpr ⟨aw, haw, hh⟩
  exact hinv.written h htoken addr aw hsusp haw hres

/-- Two coroutines are not suspended at one awaiter. -/
theorem suspended_inj (hinv : Awaiters mem susp loose made waiting tokens) {h' : Nat}
    (hh : susp h = some addr) (hh' : susp h' = some addr) : h = h' := by
  obtain ⟨aw, haw, heq⟩ := (hinv.suspended h addr).mp hh
  obtain ⟨aw', haw', heq'⟩ := (hinv.suspended h' addr).mp hh'
  rw [Option.some.inj (haw.symm.trans haw')] at heq
  exact Option.some.inj (heq.symm.trans heq')

/-- A free address has no entry, and nobody is suspended there. -/
theorem free (hinv : Awaiters mem susp loose made waiting tokens) (hfree : mem addr = none) :
    (∀ e ∈ waiting, e.addr ≠ addr) ∧ ∀ h, susp h ≠ some addr := by
  constructor
  · intro e he heq
    obtain ⟨aw, haw, _⟩ := hinv.alive e he
    rw [heq, hfree] at haw
    cases haw
  · intro h hh
    obtain ⟨aw, haw, _⟩ := (hinv.suspended h addr).mp hh
    rw [hfree] at haw
    cases haw

/-- A constructor prepares its entry. -/
theorem construct (hinv : Awaiters mem susp loose made waiting tokens) (hfree : mem addr = none)
    (req : Request) :
    Awaiters (Function.update mem addr (some ⟨req.info, made.length⟩)) susp (addr :: loose)
      (made ++ [req]) (waiting ++ [⟨addr, made.length⟩]) tokens := by
  obtain ⟨hentries, hnobody⟩ := hinv.free hfree
  have hnone : req.info.result = none := by cases req <;> rfl
  have hhandle : req.info.handle = none := by cases req <;> rfl
  constructor
  · rw [List.map_append]
    apply List.nodup_append.mpr
    refine ⟨hinv.distinct, by simp, ?_⟩
    intro a ha b hb
    obtain ⟨e, he, rfl⟩ := List.mem_map.mp ha
    rw [List.mem_singleton.mp hb]
    exact hentries e he
  · intro e he
    rcases List.mem_append.mp he with he | he
    · rw [Function.update_of_ne (hentries e he)]
      exact hinv.alive e he
    · rw [List.mem_singleton.mp he]
      exact ⟨_, Function.update_self .., rfl, hnone⟩
  · intro x aw haw hres
    rcases update_eq_iff.mp haw with ⟨rfl, _⟩ | ⟨_, haw⟩
    · exact ⟨_, List.mem_concat_self, rfl⟩
    · obtain ⟨e, he, heq⟩ := hinv.owed x aw haw hres
      exact ⟨e, List.mem_append_left _ he, heq⟩
  · intro x aw haw
    rcases update_eq_iff.mp haw with ⟨_, hnew⟩ | ⟨_, haw⟩
    · cases hnew
      exact ⟨req, List.getElem?_concat_length, rfl, rfl⟩
    · obtain ⟨r, hr, hrest⟩ := hinv.request x aw haw
      refine ⟨r, ?_, hrest⟩
      rw [List.getElem?_append_left (List.getElem?_eq_some_iff.mp hr).1, hr]
  · intro x aw haw hnew
    rcases update_eq_iff.mp haw with ⟨rfl, _⟩ | ⟨_, haw⟩
    · exact List.mem_cons_self
    · exact List.mem_cons_of_mem _ (hinv.unawaited x aw haw hnew)
  · intro h x
    rw [hinv.suspended h x]
    by_cases hx : x = addr
    · subst hx
      rw [Function.update_self, hfree]
      constructor
      · rintro ⟨aw, haw, _⟩
        cases haw
      · rintro ⟨aw, haw, hh⟩
        cases haw
        rw [hhandle] at hh
        cases hh
    · rw [Function.update_of_ne hx]
  · exact hinv.once
  · intro h hh x aw hsusp haw
    have hne : x ≠ addr := by
      rintro rfl
      exact hnobody h hsusp
    rw [Function.update_of_ne hne] at haw
    exact hinv.written h hh x aw hsusp haw

/-- `await_suspend` stores the handle. -/
theorem await (hinv : Awaiters mem susp loose made waiting tokens) (haw : mem addr = some aw)
    (hnew : aw.info.handle = none) (hrun : susp h = none) (hnodup : tokens'.Nodup)
    (htokens : ∀ x ∈ tokens', x ∈ tokens ∧ x ≠ h) :
    Awaiters (Function.update mem addr (some { aw with info.handle := some h }))
      (Function.update susp h (some addr)) (loose.erase addr) made waiting tokens' := by
  have hother : ∀ x aw', mem x = some aw' → aw'.info.handle ≠ some h := by
    intro x aw' haw' hh
    have hsusp := (hinv.suspended h x).mpr ⟨aw', haw', hh⟩
    rw [hrun] at hsusp
    cases hsusp
  have hnobody : ∀ x, susp x ≠ some addr := by
    intro x hx
    obtain ⟨aw', haw', hh⟩ := (hinv.suspended x addr).mp hx
    rw [Option.some.inj (haw'.symm.trans haw), hnew] at hh
    cases hh
  constructor
  · exact hinv.distinct
  · intro e he
    obtain ⟨aw', haw', hop, hres⟩ := hinv.alive e he
    by_cases hx : e.addr = addr
    · rw [hx, haw] at haw'
      cases haw'
      rw [hx]
      exact ⟨_, Function.update_self .., hop, hres⟩
    · exact ⟨aw', (Function.update_of_ne hx ..).trans haw', hop, hres⟩
  · intro x aw' haw' hres
    rcases update_eq_iff.mp haw' with ⟨rfl, hsame⟩ | ⟨_, haw'⟩
    · cases hsame
      exact hinv.owed x aw haw hres
    · exact hinv.owed x aw' haw' hres
  · intro x aw' haw'
    rcases update_eq_iff.mp haw' with ⟨rfl, hsame⟩ | ⟨_, haw'⟩
    · cases hsame
      exact hinv.request x aw haw
    · exact hinv.request x aw' haw'
  · intro x aw' haw' hnone
    rcases update_eq_iff.mp haw' with ⟨rfl, hsame⟩ | ⟨hne, haw'⟩
    · cases hsame
      cases hnone
    · exact (List.mem_erase_of_ne hne).mpr (hinv.unawaited x aw' haw' hnone)
  · intro x y
    by_cases hx : x = h
    · subst hx
      rw [Function.update_self]
      constructor
      · intro heq
        cases heq
        exact ⟨_, Function.update_self .., rfl⟩
      · rintro ⟨aw', haw', hh⟩
        rcases update_eq_iff.mp haw' with ⟨rfl, _⟩ | ⟨_, haw'⟩
        · rfl
        · exact absurd hh (hother y aw' haw')
    · rw [Function.update_of_ne hx]
      by_cases hy : y = addr
      · subst hy
        rw [Function.update_self]
        constructor
        · intro hsusp
          exact absurd hsusp (hnobody x)
        · rintro ⟨aw', haw', hh⟩
          cases haw'
          exact absurd (Option.some.inj hh).symm hx
      · rw [Function.update_of_ne hy]
        exact hinv.suspended x y
  · exact hnodup
  · intro x hx y aw' hsusp haw'
    obtain ⟨hold, hne⟩ := htokens x hx
    rw [Function.update_of_ne hne] at hsusp
    have hy : y ≠ addr := by
      rintro rfl
      exact hnobody x hsusp
    rw [Function.update_of_ne hy] at haw'
    exact hinv.written x hold y aw' hsusp haw'

/-- `await_resume` has read the result, and the awaiter is gone. -/
theorem resume (hinv : Awaiters mem susp loose made waiting tokens) (htoken : h ∈ tokens)
    (hsusp : susp h = some addr) :
    Awaiters (Function.update mem addr none) (Function.update susp h none) loose made waiting
      tokens := by
  obtain ⟨aw, haw, hh⟩ := (hinv.suspended h addr).mp hsusp
  have hentries : ∀ e ∈ waiting, e.addr ≠ addr := by
    intro e he heq
    obtain ⟨aw', haw', _, hres⟩ := hinv.alive e he
    exact hinv.written h htoken addr aw' hsusp (heq ▸ haw') hres
  have hkept : ∀ {x aw'}, Function.update mem addr none x = some aw' →
      x ≠ addr ∧ mem x = some aw' := by
    intro x aw' haw'
    rcases update_eq_iff.mp haw' with ⟨_, hnone⟩ | hold
    · cases hnone
    · exact hold
  constructor
  · exact hinv.distinct
  · intro e he
    rw [Function.update_of_ne (hentries e he)]
    exact hinv.alive e he
  · intro x aw' haw' hres
    exact hinv.owed x aw' (hkept haw').2 hres
  · intro x aw' haw'
    exact hinv.request x aw' (hkept haw').2
  · intro x aw' haw' hnone
    exact hinv.unawaited x aw' (hkept haw').2 hnone
  · intro x y
    by_cases hx : x = h
    · subst hx
      rw [Function.update_self]
      constructor
      · intro heq
        cases heq
      · rintro ⟨aw', haw', hh'⟩
        obtain ⟨hne, hold⟩ := hkept haw'
        have hsame := hsusp.symm.trans ((hinv.suspended x y).mpr ⟨aw', hold, hh'⟩)
        exact absurd (Option.some.inj hsame).symm hne
    · rw [Function.update_of_ne hx, hinv.suspended x y]
      constructor
      · rintro ⟨aw', haw', hh'⟩
        have hne : y ≠ addr := by
          rintro rfl
          rw [Option.some.inj (haw'.symm.trans haw), hh] at hh'
          exact hx (Option.some.inj hh').symm
        exact ⟨aw', (Function.update_of_ne hne ..).trans haw', hh'⟩
      · rintro ⟨aw', haw', hh'⟩
        exact ⟨aw', (hkept haw').2, hh'⟩
  · exact hinv.once
  · intro x hx y aw' hsusp' haw'
    obtain ⟨_, hold⟩ := hkept haw'
    rcases update_eq_iff.mp hsusp' with ⟨_, hnone⟩ | ⟨_, hsusp'⟩
    · cases hnone
    · exact hinv.written x hx y aw' hsusp' hold

/-- A callback stores the result, and the entry is done with. -/
theorem callback {e : Entry} (hinv : Awaiters mem susp loose made (e :: waiting) tokens)
    (haw : mem e.addr = some aw) (res : BitVec 32) :
    Awaiters (Function.update mem e.addr (some { aw with info := aw.info.call res })) susp loose
      made waiting tokens := by
  have hentries : ∀ e' ∈ waiting, e'.addr ≠ e.addr := by
    intro e' he' heq
    have hdistinct := hinv.distinct
    rw [List.map_cons, List.nodup_cons] at hdistinct
    exact hdistinct.1 (List.mem_map.mpr ⟨e', he', heq⟩)
  constructor
  · exact (List.nodup_cons.mp hinv.distinct).2
  · intro e' he'
    rw [Function.update_of_ne (hentries e' he')]
    exact hinv.alive e' (List.mem_cons_of_mem _ he')
  · intro x aw' haw' hres
    rcases update_eq_iff.mp haw' with ⟨rfl, hsame⟩ | ⟨hne, haw'⟩
    · cases hsame
      cases hres
    · obtain ⟨e', he', heq⟩ := hinv.owed x aw' haw' hres
      rcases List.mem_cons.mp he' with rfl | he'
      · exact absurd heq.symm hne
      · exact ⟨e', he', heq⟩
  · intro x aw' haw'
    rcases update_eq_iff.mp haw' with ⟨rfl, hsame⟩ | ⟨_, haw'⟩
    · cases hsame
      exact hinv.request e.addr aw haw
    · exact hinv.request x aw' haw'
  · intro x aw' haw' hnone
    rcases update_eq_iff.mp haw' with ⟨rfl, hsame⟩ | ⟨_, haw'⟩
    · cases hsame
      exact hinv.unawaited e.addr aw haw hnone
    · exact hinv.unawaited x aw' haw' hnone
  · intro h x
    rw [hinv.suspended h x]
    by_cases hx : x = e.addr
    · subst hx
      rw [Function.update_self, haw]
      constructor
      · rintro ⟨aw', haw', hh⟩
        cases haw'
        exact ⟨_, rfl, hh⟩
      · rintro ⟨aw', haw', hh⟩
        cases haw'
        exact ⟨_, rfl, hh⟩
    · rw [Function.update_of_ne hx]
  · exact hinv.once
  · intro h hh x aw' hsusp haw'
    rcases update_eq_iff.mp haw' with ⟨rfl, hsame⟩ | ⟨_, haw'⟩
    · cases hsame
      exact Option.some_ne_none _
    · exact hinv.written h hh x aw' hsusp haw'

end Awaiters

end SheepCoro.Io
