import SheepCoro.Lib.Update
import SheepCoro.Calls.Machine

/-!
# The frames of a tree of calls

What holds between a frame and those of its local tasks, in every state that a
run reaches.  A task that is awaited is the only local task of its frame that
does anything, its continuation is that frame, and every frame but the root
has one owner.  All of this is local: it speaks of a frame and its owner, and
`depth` makes an induction from a frame to its root possible.
-/

namespace SheepCoro.Calls

open Lib

open Container (Call Outcome Variant)

variable {T E Q A φ : Type} [DecidableEq φ] {unset : E} {s s' : State T E Q A φ}
  {a : Label T E Q A φ} {f g h : φ} {fr ch : Frame T E Q A φ} {i j : Nat}

/-- The coroutine was not started, or is done. -/
def Status.idle : Status T E Q A → Bool
  | .created _ | .done => true
  | _ => false

/-- The local task that is awaited. -/
def Status.joins : Status T E Q A → Option Nat
  | .joining i _ => some i
  | _ => none

/-- The `i`-th local task of `f` is `g`. -/
def Owns (s : State T E Q A φ) (f : φ) (i : Nat) (g : φ) : Prop :=
  ∃ fr, s.frames f = some fr ∧ fr.tasks[i]? = some (some g)

/-- A frame and that of its `i`-th local task. -/
structure Fits (f : φ) (fr : Frame T E Q A φ) (i : Nat) (ch : Frame T E Q A φ) : Prop where
  root : ch.root = fr.root
  depth : ch.depth = fr.depth + 1
  busy : fr.status.joins = some i ↔ ch.status.idle = false
  continuation : ch.status.idle = false → ch.continuation = some f

/-- A frame on its own. -/
structure Sound (f : φ) (fr : Frame T E Q A φ) : Prop where
  /-- A task is awaited that has a coroutine. -/
  slot : ∀ i, fr.status.joins = some i → ∃ g, fr.tasks[i]? = some (some g)
  bare : fr.status.idle = true → fr.tasks = []
  fresh : ∀ b, fr.status = .created b → fr.continuation = none ∧ fr.container = .unsetReturnValue
  top : fr.depth = 0 ↔ f = fr.root
  last : f = fr.root → fr.continuation = none

structure Heap (s : State T E Q A φ) : Prop where
  sound : ∀ f fr, s.frames f = some fr → Sound f fr
  fits : ∀ f fr i g, s.frames f = some fr → fr.tasks[i]? = some (some g) →
    ∃ ch, s.frames g = some ch ∧ Fits f fr i ch
  unique : ∀ f i f' i' g, Owns s f i g → Owns s f' i' g → f = f' ∧ i = i'
  kept : ∀ f fr, s.frames f = some fr → f ≠ fr.root → ∃ p i, Owns s p i f

omit [DecidableEq φ] in
/-- The owner changes in what its tasks do not see. -/
theorem Fits.owner {fr' : Frame T E Q A φ} (h : Fits f fr i ch) (hroot : fr'.root = fr.root)
    (hdepth : fr'.depth = fr.depth) (hjoins : fr'.status.joins = fr.status.joins) :
    Fits f fr' i ch where
  root := h.root.trans hroot.symm
  depth := h.depth.trans (congrArg (· + 1) hdepth.symm)
  busy := hjoins ▸ h.busy
  continuation := h.continuation

omit [DecidableEq φ] in
/-- A task changes in what its owner does not see. -/
theorem Fits.task {ch' : Frame T E Q A φ} (h : Fits f fr i ch) (hroot : ch'.root = ch.root)
    (hdepth : ch'.depth = ch.depth) (hidle : ch'.status.idle = ch.status.idle)
    (hcont : ch'.continuation = ch.continuation) : Fits f fr i ch' where
  root := hroot.trans h.root
  depth := hdepth.trans h.depth
  busy := hidle ▸ h.busy
  continuation hbusy := hcont.trans (h.continuation (hidle ▸ hbusy))

theorem joins_eq {st : Status T E Q A} (h : st.joins = some i) : ∃ k, st = .joining i k := by
  unfold Status.joins at h
  split at h
  · next k =>
    cases h
    exact ⟨k, rfl⟩
  · cases h

section

omit [DecidableEq φ]

/-- A coroutine that was started goes on. -/
theorem Sound.move {fr' : Frame T E Q A φ} (h : Sound f fr) (hroot : fr'.root = fr.root)
    (hdepth : fr'.depth = fr.depth) (hcont : fr'.continuation = fr.continuation)
    (hidle : fr'.status.idle = false)
    (hslot : ∀ i, fr'.status.joins = some i → ∃ g, fr'.tasks[i]? = some (some g)) :
    Sound f fr' where
  slot := hslot
  bare hrest := by rw [hidle] at hrest; cases hrest
  fresh b hb := by rw [hb] at hidle; cases hidle
  top := by rw [hdepth, hroot]; exact h.top
  last htop := hcont.trans (h.last (hroot ▸ htop))

theorem Sound.ended {c : Call T E} (h : Sound f fr) : Sound f (fr.ended c) where
  slot i hi := by cases hi
  bare _ := rfl
  fresh b hb := by cases hb
  top := h.top
  last := h.last

theorem heap_newState : Heap (newState : State T E Q A φ) := by
  constructor
  · intro f fr hfr
    cases hfr
  · intro f fr i g hfr
    cases hfr
  · rintro f i f' i' g ⟨fr, hfr, _⟩
    cases hfr
  · intro f fr hfr
    cases hfr

end

namespace Heap

section

omit [DecidableEq φ]

theorem owner_ne (hh : Heap s) (hfr : s.frames f = some fr) (htask : fr.tasks[i]? = some (some g)) :
    g ≠ f := by
  rintro rfl
  obtain ⟨ch, hch, hfits⟩ := hh.fits g fr i g hfr htask
  have hdepth := hfits.depth
  rw [Option.some.inj (hch.symm.trans hfr)] at hdepth
  omega

/-- The root has no owner. -/
theorem root_free (hh : Heap s) (hfr : s.frames f = some fr) (hroot : f = fr.root) (p : φ)
    (i : Nat) : ¬ Owns s p i f := by
  rintro ⟨frp, hp, htask⟩
  obtain ⟨ch, hch, hfits⟩ := hh.fits p frp i f hp htask
  have hzero := ((hh.sound f fr hfr).top).mpr hroot
  have hdepth := hfits.depth
  rw [Option.some.inj (hch.symm.trans hfr)] at hdepth
  omega

/-- A coroutine that was started and is not the root is awaited by its
owner. -/
theorem caller (hh : Heap s) (hfr : s.frames f = some fr) (hbusy : fr.status.idle = false)
    (hne : f ≠ fr.root) :
    ∃ p frp i, s.frames p = some frp ∧ frp.tasks[i]? = some (some f) ∧
      frp.status.joins = some i ∧ fr.continuation = some p ∧ frp.root = fr.root ∧
      fr.depth = frp.depth + 1 := by
  obtain ⟨p, i, frp, hp, htask⟩ := hh.kept f fr hfr hne
  obtain ⟨ch, hch, hfits⟩ := hh.fits p frp i f hp htask
  obtain rfl : ch = fr := Option.some.inj (hch.symm.trans hfr)
  exact ⟨p, frp, i, hp, htask, hfits.busy.mpr hbusy, hfits.continuation hbusy, hfits.root.symm,
    hfits.depth⟩

end

/-- Above every frame there is its root. -/
theorem rooted (hh : Heap s) (hfr : s.frames f = some fr) :
    ∃ top, s.frames fr.root = some top ∧ top.root = fr.root := by
  induction hd : fr.depth using Nat.strongRecOn generalizing f fr with
  | ind d ih =>
    by_cases hroot : f = fr.root
    · exact ⟨fr, hroot ▸ hfr, rfl⟩
    · obtain ⟨p, i, frp, hp, htask⟩ := hh.kept f fr hfr hroot
      obtain ⟨ch, hch, hfits⟩ := hh.fits p frp i f hp htask
      obtain rfl : ch = fr := Option.some.inj (hch.symm.trans hfr)
      have hless : frp.depth < d := by
        have hdepth := hfits.depth
        omega
      obtain ⟨top, htop, hsame⟩ := ih _ hless hp rfl
      rw [hfits.root]
      exact ⟨top, htop, hsame⟩

end Heap

/-! ## Frames that change -/

@[simp] theorem put_frames (fr : Frame T E Q A φ) :
    (s.put f fr).frames = Function.update s.frames f (some fr) := rfl

theorem destroy_frames {gs : List φ} {x : φ} {fr : Frame T E Q A φ} :
    (s.destroy gs).frames x = some fr ↔ x ∉ gs ∧ s.frames x = some fr := by
  unfold State.destroy
  show (if x ∈ gs then none else s.frames x) = some fr ↔ _
  split_ifs with hx <;> simp [hx]

namespace Heap

/-- A frame changes, and neither its tasks nor what its owner sees of it. -/
theorem put {fr' : Frame T E Q A φ} (hh : Heap s) (hfr : s.frames f = some fr)
    (hsound : Sound f fr') (hroot : fr'.root = fr.root) (hdepth : fr'.depth = fr.depth)
    (htasks : fr'.tasks = fr.tasks) (hjoins : fr'.status.joins = fr.status.joins)
    (hseen : f = fr.root ∨
      fr'.status.idle = fr.status.idle ∧ fr'.continuation = fr.continuation) :
    Heap (s.put f fr') := by
  have hold : ∀ {x fx}, (s.put f fr').frames x = some fx →
      ∃ fx', s.frames x = some fx' ∧ fx'.tasks = fx.tasks ∧ fx'.root = fx.root := by
    intro x fx hx
    rcases update_eq_iff.mp hx with ⟨rfl, heq⟩ | ⟨_, hx⟩
    · cases heq
      exact ⟨fr, hfr, htasks.symm, hroot.symm⟩
    · exact ⟨fx, hx, rfl, rfl⟩
  have howns : ∀ {x j y}, Owns (s.put f fr') x j y → Owns s x j y := by
    rintro x j y ⟨fx, hx, hslot⟩
    obtain ⟨fx', hx', hsame, _⟩ := hold hx
    exact ⟨fx', hx', hsame ▸ hslot⟩
  constructor
  · intro x fx hx
    rcases update_eq_iff.mp hx with ⟨rfl, heq⟩ | ⟨_, hx⟩
    · cases heq
      exact hsound
    · exact hh.sound x fx hx
  · intro x fx j y hx hslot
    obtain ⟨fx', hx', hsame, _⟩ := hold hx
    obtain ⟨ch, hch, hfits⟩ := hh.fits x fx' j y hx' (hsame ▸ hslot)
    -- The owner.
    have howner : Fits x fx j ch := by
      rcases update_eq_iff.mp hx with ⟨rfl, heq⟩ | ⟨_, hx⟩
      · cases heq
        obtain rfl : fx' = fr := Option.some.inj (hx'.symm.trans hfr)
        exact hfits.owner hroot hdepth hjoins
      · obtain rfl : fx' = fx := Option.some.inj (hx'.symm.trans hx)
        exact hfits
    by_cases hy : y = f
    · subst hy
      obtain rfl : ch = fr := Option.some.inj (hch.symm.trans hfr)
      refine ⟨fr', Function.update_self .., ?_⟩
      rcases hseen with htop | ⟨hidle, hcont⟩
      · exact absurd ⟨fx', hx', hsame ▸ hslot⟩ (hh.root_free hfr htop x j)
      · exact howner.task hroot hdepth hidle hcont
    · exact ⟨ch, (Function.update_of_ne hy ..).trans hch, howner⟩
  · intro x j x' j' y h1 h2
    exact hh.unique x j x' j' y (howns h1) (howns h2)
  · intro x fx hx hne
    obtain ⟨fx', hx', _, hsame⟩ := hold hx
    obtain ⟨p, j, frp, hp, hslot⟩ := hh.kept x fx' hx' (hsame ▸ hne)
    by_cases hpf : p = f
    · subst hpf
      obtain rfl : frp = fr := Option.some.inj (hp.symm.trans hfr)
      exact ⟨p, j, fr', Function.update_self .., htasks ▸ hslot⟩
    · exact ⟨p, j, frp, (Function.update_of_ne hpf ..).trans hp, hslot⟩

omit [DecidableEq φ] in
/-- No task has a coroutine without a frame. -/
theorem slot_ne_free (hh : Heap s) (hfree : s.frames g = none) {x : φ} {fx : Frame T E Q A φ}
    (hx : s.frames x = some fx) (hslot : fx.tasks[j]? = some (some g)) : False := by
  obtain ⟨ch, hch, _⟩ := hh.fits x fx j g hx hslot
  rw [hfree] at hch
  cases hch

omit [DecidableEq φ] in
theorem sound_newFrame (root : φ) (depth : Nat) (b : Body T E Q A)
    (htop : depth = 0 ↔ f = root) : Sound f (newFrame root depth b) where
  slot i hi := by cases hi
  bare _ := rfl
  fresh _ _ := ⟨rfl, rfl⟩
  top := htop
  last _ := rfl

/-- A root task is created. -/
theorem spawn (hh : Heap s) (hfree : s.frames f = none) (b : Body T E Q A) :
    Heap (s.put f (newFrame f 0 b)) := by
  have howns : ∀ {x j y}, Owns (s.put f (newFrame f 0 b)) x j y → Owns s x j y := by
    rintro x j y ⟨fx, hx, hslot⟩
    rcases update_eq_iff.mp hx with ⟨rfl, heq⟩ | ⟨_, hx⟩
    · cases heq
      cases hslot
    · exact ⟨fx, hx, hslot⟩
  constructor
  · intro x fx hx
    rcases update_eq_iff.mp hx with ⟨rfl, heq⟩ | ⟨_, hx⟩
    · cases heq
      exact sound_newFrame _ _ _ (by simp)
    · exact hh.sound x fx hx
  · intro x fx j y hx hslot
    rcases update_eq_iff.mp hx with ⟨rfl, heq⟩ | ⟨_, hold⟩
    · cases heq
      cases hslot
    · obtain ⟨ch, hch, hfits⟩ := hh.fits x fx j y hold hslot
      have hne : y ≠ f := by
        rintro rfl
        exact hh.slot_ne_free hfree hold hslot
      exact ⟨ch, (Function.update_of_ne hne ..).trans hch, hfits⟩
  · intro x j x' j' y h1 h2
    exact hh.unique x j x' j' y (howns h1) (howns h2)
  · intro x fx hx hne
    rcases update_eq_iff.mp hx with ⟨rfl, heq⟩ | ⟨_, hx⟩
    · cases heq
      exact absurd rfl hne
    · obtain ⟨p, j, frp, hp, hslot⟩ := hh.kept x fx hx hne
      have hpf : p ≠ f := by
        rintro rfl
        rw [hfree] at hp
        cases hp
      exact ⟨p, j, frp, (Function.update_of_ne hpf ..).trans hp, hslot⟩

/-- A coroutine calls another one, which gets a frame. -/
theorem make {fr' : Frame T E Q A φ} (hh : Heap s) (hfr : s.frames f = some fr)
    (hfree : s.frames g = none) (hsound : Sound f fr') (hroot : fr'.root = fr.root)
    (hdepth : fr'.depth = fr.depth) (htasks : fr'.tasks = fr.tasks ++ [some g])
    (hjoins : fr.status.joins = none) (hjoins' : fr'.status.joins = none)
    (hidle : fr'.status.idle = fr.status.idle) (hcont : fr'.continuation = fr.continuation)
    (b : Body T E Q A) :
    Heap ((s.put f fr').put g (newFrame fr.root (fr.depth + 1) b)) := by
  have hgf : g ≠ f := by
    rintro rfl
    rw [hfree] at hfr
    cases hfr
  have hgroot : g ≠ fr.root := by
    intro heq
    obtain ⟨top, htop, _⟩ := hh.rooted hfr
    rw [← heq, hfree] at htop
    cases htop
  -- A frame of the new state, and the slots that it had.
  have hframe : ∀ {x fx}, ((s.put f fr').put g (newFrame fr.root (fr.depth + 1) b)).frames x =
      some fx → x = g ∧ fx = newFrame fr.root (fr.depth + 1) b ∨ x = f ∧ fx = fr' ∨
        x ≠ g ∧ x ≠ f ∧ s.frames x = some fx := by
    intro x fx hx
    rcases update_eq_iff.mp hx with ⟨rfl, heq⟩ | ⟨hxg, hx⟩
    · exact .inl ⟨rfl, (Option.some.inj heq).symm⟩
    · rcases update_eq_iff.mp hx with ⟨rfl, heq⟩ | ⟨hxf, hx⟩
      · exact .inr (.inl ⟨rfl, (Option.some.inj heq).symm⟩)
      · exact .inr (.inr ⟨hxg, hxf, hx⟩)
  have hslots : ∀ {j y}, fr'.tasks[j]? = some (some y) →
      fr.tasks[j]? = some (some y) ∨ j = fr.tasks.length ∧ y = g := by
    intro j y hslot
    rw [htasks, List.getElem?_append] at hslot
    split_ifs at hslot with hlt
    · exact .inl hslot
    · rcases Nat.eq_zero_or_pos (j - fr.tasks.length) with hzero | hpos
      · rw [hzero] at hslot
        cases hslot
        exact .inr ⟨by omega, rfl⟩
      · rw [List.getElem?_eq_none (Nat.succ_le_of_lt hpos)] at hslot
        cases hslot
  have howns : ∀ {x j y}, Owns ((s.put f fr').put g (newFrame fr.root (fr.depth + 1) b)) x j y →
      Owns s x j y ∨ x = f ∧ j = fr.tasks.length ∧ y = g := by
    rintro x j y ⟨fx, hx, hslot⟩
    rcases hframe hx with ⟨rfl, rfl⟩ | ⟨rfl, rfl⟩ | ⟨_, _, hx⟩
    · cases hslot
    · rcases hslots hslot with hold | hnew
      · exact .inl ⟨fr, hfr, hold⟩
      · exact .inr ⟨rfl, hnew⟩
    · exact .inl ⟨fx, hx, hslot⟩
  -- What was a task is one, with the frame that is there now.
  have hchild : ∀ {x j y} {fx : Frame T E Q A φ}, s.frames x = some fx →
      fx.tasks[j]? = some (some y) →
      ∃ ch, ((s.put f fr').put g (newFrame fr.root (fr.depth + 1) b)).frames y = some ch ∧
        Fits x fx j ch := by
    intro x j y fx hx hslot
    obtain ⟨ch, hch, hfits⟩ := hh.fits x fx j y hx hslot
    have hyg : y ≠ g := by
      rintro rfl
      exact hh.slot_ne_free hfree hx hslot
    by_cases hyf : y = f
    · subst hyf
      obtain rfl : ch = fr := Option.some.inj (hch.symm.trans hfr)
      refine ⟨fr', ?_, hfits.task hroot hdepth hidle hcont⟩
      rw [put_frames, put_frames, Function.update_of_ne hyg, Function.update_self]
    · refine ⟨ch, ?_, hfits⟩
      rw [put_frames, put_frames, Function.update_of_ne hyg, Function.update_of_ne hyf, hch]
  constructor
  · intro x fx hx
    rcases hframe hx with ⟨rfl, rfl⟩ | ⟨rfl, rfl⟩ | ⟨_, _, hx⟩
    · exact sound_newFrame _ _ _ (by simp [hgroot])
    · exact hsound
    · exact hh.sound x fx hx
  · intro x fx j y hx hslot
    rcases hframe hx with ⟨rfl, rfl⟩ | ⟨rfl, rfl⟩ | ⟨_, _, hx⟩
    · cases hslot
    · rcases hslots hslot with hold | ⟨rfl, rfl⟩
      · obtain ⟨ch, hch, hfits⟩ := hchild hfr hold
        exact ⟨ch, hch, hfits.owner hroot hdepth (hjoins'.trans hjoins.symm)⟩
      · refine ⟨_, Function.update_self .., ?_⟩
        exact {
          root := hroot.symm
          depth := congrArg (· + 1) hdepth.symm
          busy := by simp [hjoins', newFrame, Status.idle]
          continuation := fun hbusy => by cases hbusy }
    · exact hchild hx hslot
  · intro x j x' j' y h1 h2
    have hnew : ¬ Owns s x j g ∧ ¬ Owns s x' j' g :=
      ⟨fun ⟨_, hx, hslot⟩ => hh.slot_ne_free hfree hx hslot,
        fun ⟨_, hx, hslot⟩ => hh.slot_ne_free hfree hx hslot⟩
    rcases howns h1 with hold | ⟨hx, hj, hy⟩ <;> rcases howns h2 with hold' | ⟨hx', hj', hy'⟩
    · exact hh.unique x j x' j' y hold hold'
    · exact absurd (hy' ▸ hold) hnew.1
    · exact absurd (hy ▸ hold') hnew.2
    · exact ⟨hx.trans hx'.symm, hj.trans hj'.symm⟩
  · intro x fx hx hne
    have hkept : ∀ {x p j}, Owns s p j x →
        Owns ((s.put f fr').put g (newFrame fr.root (fr.depth + 1) b)) p j x := by
      rintro x p j ⟨frp, hp, hslot⟩
      have hpg : p ≠ g := by
        rintro rfl
        rw [hfree] at hp
        cases hp
      by_cases hpf : p = f
      · subst hpf
        obtain rfl : frp = fr := Option.some.inj (hp.symm.trans hfr)
        refine ⟨fr', ?_, ?_⟩
        · rw [put_frames, put_frames, Function.update_of_ne hpg, Function.update_self]
        · rw [htasks, List.getElem?_append_left (List.getElem?_eq_some_iff.mp hslot).1, hslot]
      · refine ⟨frp, ?_, hslot⟩
        rw [put_frames, put_frames, Function.update_of_ne hpg, Function.update_of_ne hpf, hp]
    rcases hframe hx with ⟨rfl, rfl⟩ | ⟨rfl, rfl⟩ | ⟨_, _, hx⟩
    · refine ⟨f, fr.tasks.length, fr', ?_, ?_⟩
      · rw [put_frames, put_frames, Function.update_of_ne hgf.symm, Function.update_self]
      · rw [htasks]
        exact List.getElem?_concat_length
    · obtain ⟨p, j, hp⟩ := hh.kept x fr hfr (hroot ▸ hne)
      exact ⟨p, j, hkept hp⟩
    · obtain ⟨p, j, hp⟩ := hh.kept x fx hx hne
      exact ⟨p, j, hkept hp⟩

/-- A frame without tasks and its owner change together. -/
theorem link {p : φ} {frp frp' fr' : Frame T E Q A φ} (hh : Heap s) (hp : s.frames p = some frp)
    (hfr : s.frames f = some fr) (hslot : frp.tasks[i]? = some (some f))
    (hbare : fr.tasks = []) (hbare' : fr'.tasks = []) (hsoundp : Sound p frp')
    (hsound : Sound f fr') (hroot : frp'.root = frp.root) (hdepth : frp'.depth = frp.depth)
    (htasks : frp'.tasks = frp.tasks) (hfits : Fits p frp' i fr')
    (hother : ∀ j, j ≠ i → frp.status.joins ≠ some j ∧ frp'.status.joins ≠ some j)
    (hidle : frp'.status.idle = frp.status.idle)
    (hcont : frp'.continuation = frp.continuation) : Heap ((s.put p frp').put f fr') := by
  have hfp : f ≠ p := hh.owner_ne hp hslot
  have hframe : ∀ {x fx}, ((s.put p frp').put f fr').frames x = some fx →
      x = f ∧ fx = fr' ∨ x = p ∧ fx = frp' ∨ x ≠ f ∧ x ≠ p ∧ s.frames x = some fx := by
    intro x fx hx
    rcases update_eq_iff.mp hx with ⟨rfl, heq⟩ | ⟨hxf, hx⟩
    · exact .inl ⟨rfl, (Option.some.inj heq).symm⟩
    · rcases update_eq_iff.mp hx with ⟨rfl, heq⟩ | ⟨hxp, hx⟩
      · exact .inr (.inl ⟨rfl, (Option.some.inj heq).symm⟩)
      · exact .inr (.inr ⟨hxf, hxp, hx⟩)
  have hnewp : ((s.put p frp').put f fr').frames p = some frp' := by
    rw [put_frames, put_frames, Function.update_of_ne hfp.symm, Function.update_self]
  have howns : ∀ {x j y}, Owns ((s.put p frp').put f fr') x j y ↔ Owns s x j y := by
    intro x j y
    constructor
    · rintro ⟨fx, hx, hy⟩
      rcases hframe hx with ⟨rfl, rfl⟩ | ⟨rfl, rfl⟩ | ⟨_, _, hx⟩
      · rw [hbare'] at hy
        cases hy
      · exact ⟨frp, hp, htasks ▸ hy⟩
      · exact ⟨fx, hx, hy⟩
    · rintro ⟨fx, hx, hy⟩
      have hxf : x ≠ f := by
        rintro rfl
        rw [Option.some.inj (hx.symm.trans hfr), hbare] at hy
        cases hy
      by_cases hxp : x = p
      · subst hxp
        rw [Option.some.inj (hx.symm.trans hp)] at hy
        exact ⟨frp', hnewp, htasks ▸ hy⟩
      · refine ⟨fx, ?_, hy⟩
        rw [put_frames, put_frames, Function.update_of_ne hxf, Function.update_of_ne hxp, hx]
  constructor
  · intro x fx hx
    rcases hframe hx with ⟨rfl, rfl⟩ | ⟨rfl, rfl⟩ | ⟨_, _, hx⟩
    · exact hsound
    · exact hsoundp
    · exact hh.sound x fx hx
  · intro x fx j y hx hy
    have hold := howns.mp ⟨fx, hx, hy⟩
    by_cases hyf : y = f
    · subst hyf
      obtain ⟨rfl, rfl⟩ := hh.unique x j p i y hold ⟨frp, hp, hslot⟩
      rw [Option.some.inj (hx.symm.trans hnewp)]
      exact ⟨fr', Function.update_self .., hfits⟩
    · rcases hframe hx with ⟨rfl, rfl⟩ | ⟨rfl, rfl⟩ | ⟨_, hxp, hx⟩
      · rw [hbare'] at hy
        cases hy
      · -- Another task of the owner.
        rw [htasks] at hy
        obtain ⟨ch, hch, hfits'⟩ := hh.fits x frp j y hp hy
        have hji : j ≠ i := by
          rintro rfl
          rw [hslot] at hy
          exact hyf (Option.some.inj (Option.some.inj hy)).symm
        obtain ⟨hnot, hnot'⟩ := hother j hji
        have hrest : ch.status.idle = true := by
          by_contra hbusy
          exact hnot (hfits'.busy.mpr (Bool.not_eq_true _ ▸ hbusy))
        refine ⟨ch, ?_, ?_⟩
        · rw [put_frames, put_frames, Function.update_of_ne hyf,
            Function.update_of_ne (hh.owner_ne hp hy), hch]
        · exact {
            root := hfits'.root.trans hroot.symm
            depth := hfits'.depth.trans (congrArg (· + 1) hdepth.symm)
            busy := by simp [hnot', hrest]
            continuation := hfits'.continuation }
      · obtain ⟨ch, hch, hfits'⟩ := hh.fits x fx j y hx hy
        by_cases hyp : y = p
        · subst hyp
          obtain rfl : ch = frp := Option.some.inj (hch.symm.trans hp)
          exact ⟨frp', hnewp, hfits'.task hroot hdepth hidle hcont⟩
        · refine ⟨ch, ?_, hfits'⟩
          rw [put_frames, put_frames, Function.update_of_ne hyf, Function.update_of_ne hyp, hch]
  · intro x j x' j' y h1 h2
    exact hh.unique x j x' j' y (howns.mp h1) (howns.mp h2)
  · intro x fx hx hne
    rcases hframe hx with ⟨rfl, rfl⟩ | ⟨rfl, rfl⟩ | ⟨_, _, hx⟩
    · exact ⟨p, i, howns.mpr ⟨frp, hp, hslot⟩⟩
    · obtain ⟨q, j, hq⟩ := hh.kept x frp hp (hroot ▸ hne)
      exact ⟨q, j, howns.mpr hq⟩
    · obtain ⟨q, j, hq⟩ := hh.kept x fx hx hne
      exact ⟨q, j, howns.mpr hq⟩

omit [DecidableEq φ] in
/-- The tasks of a coroutine that awaits none of them are idle, and have no
tasks. -/
theorem task_idle (hh : Heap s) (hfr : s.frames f = some fr) (hjoins : fr.status.joins = none)
    (hslot : fr.tasks[i]? = some (some g)) :
    ∃ ch, s.frames g = some ch ∧ ch.status.idle = true ∧ ch.tasks = [] := by
  obtain ⟨ch, hch, hfits⟩ := hh.fits f fr i g hfr hslot
  have hidle : ch.status.idle = true := by
    by_contra hbusy
    have hsome := hfits.busy.mpr (Bool.not_eq_true _ ▸ hbusy)
    rw [hjoins] at hsome
    cases hsome
  exact ⟨ch, hch, hidle, (hh.sound g ch hch).bare hidle⟩

/-- Local tasks are destroyed. -/
theorem release {fr' : Frame T E Q A φ} {gs : List φ} (hh : Heap s)
    (hfr : s.frames f = some fr) (hsound : Sound f fr') (hroot : fr'.root = fr.root)
    (hdepth : fr'.depth = fr.depth) (hjoins : fr.status.joins = none)
    (hjoins' : fr'.status.joins = none) (hidle : fr'.status.idle = fr.status.idle)
    (hcont : fr'.continuation = fr.continuation)
    (htasks : ∀ (j : Nat) (y : φ), fr'.tasks[j]? = some (some y) ↔
      fr.tasks[j]? = some (some y) ∧ y ∉ gs)
    (hgs : ∀ g ∈ gs, ∃ j : Nat, fr.tasks[j]? = some (some g)) :
    Heap ((s.put f fr').destroy gs) := by
  have hout : f ∉ gs := by
    intro hin
    obtain ⟨j, hslot⟩ := hgs f hin
    exact hh.owner_ne hfr hslot rfl
  have hframe : ∀ {x fx}, ((s.put f fr').destroy gs).frames x = some fx →
      x ∉ gs ∧ (x = f ∧ fx = fr' ∨ x ≠ f ∧ s.frames x = some fx) := by
    intro x fx hx
    obtain ⟨hxg, hx⟩ := destroy_frames.mp hx
    refine ⟨hxg, ?_⟩
    rcases update_eq_iff.mp hx with ⟨rfl, heq⟩ | hx
    · exact .inl ⟨rfl, (Option.some.inj heq).symm⟩
    · exact .inr hx
  have hnew : ((s.put f fr').destroy gs).frames f = some fr' :=
    destroy_frames.mpr ⟨hout, Function.update_self ..⟩
  have hstay : ∀ {x fx}, x ∉ gs → x ≠ f → s.frames x = some fx →
      ((s.put f fr').destroy gs).frames x = some fx :=
    fun hxg hxf hx => destroy_frames.mpr ⟨hxg, (Function.update_of_ne hxf ..).trans hx⟩
  have howns : ∀ {x j y}, Owns ((s.put f fr').destroy gs) x j y → Owns s x j y := by
    rintro x j y ⟨fx, hx, hy⟩
    rcases (hframe hx).2 with ⟨rfl, rfl⟩ | ⟨_, hx⟩
    · exact ⟨fr, hfr, ((htasks j y).mp hy).1⟩
    · exact ⟨fx, hx, hy⟩
  constructor
  · intro x fx hx
    rcases (hframe hx).2 with ⟨rfl, rfl⟩ | ⟨_, hx⟩
    · exact hsound
    · exact hh.sound x fx hx
  · intro x fx j y hx hy
    rcases (hframe hx).2 with ⟨rfl, rfl⟩ | ⟨hxf, hx⟩
    · obtain ⟨hslot, hyg⟩ := (htasks j y).mp hy
      obtain ⟨ch, hch, hfits⟩ := hh.fits x fr j y hfr hslot
      exact ⟨ch, hstay hyg (hh.owner_ne hfr hslot) hch,
        hfits.owner hroot hdepth (hjoins'.trans hjoins.symm)⟩
    · obtain ⟨ch, hch, hfits⟩ := hh.fits x fx j y hx hy
      have hyg : y ∉ gs := by
        intro hin
        obtain ⟨j', hslot⟩ := hgs y hin
        exact hxf (hh.unique x j f j' y ⟨fx, hx, hy⟩ ⟨fr, hfr, hslot⟩).1
      by_cases hyf : y = f
      · subst hyf
        obtain rfl : ch = fr := Option.some.inj (hch.symm.trans hfr)
        exact ⟨fr', hnew, hfits.task hroot hdepth hidle hcont⟩
      · exact ⟨ch, hstay hyg hyf hch, hfits⟩
  · intro x j x' j' y h1 h2
    exact hh.unique x j x' j' y (howns h1) (howns h2)
  · intro x fx hx hne
    obtain ⟨hxg, hx⟩ := hframe hx
    have hold : ∃ p j, Owns s p j x := by
      rcases hx with ⟨rfl, rfl⟩ | ⟨_, hx⟩
      · exact hh.kept x fr hfr (hroot ▸ hne)
      · exact hh.kept x fx hx hne
    obtain ⟨p, j, frp, hp, hslot⟩ := hold
    by_cases hpf : p = f
    · subst hpf
      rw [Option.some.inj (hp.symm.trans hfr)] at hslot
      exact ⟨p, j, fr', hnew, (htasks j x).mpr ⟨hslot, hxg⟩⟩
    · have hpg : p ∉ gs := by
        intro hin
        obtain ⟨j', hslot'⟩ := hgs p hin
        obtain ⟨ch, hch, _, hnil⟩ := hh.task_idle hfr hjoins hslot'
        rw [Option.some.inj (hp.symm.trans hch), hnil] at hslot
        cases hslot
      exact ⟨p, j, frp, hstay hpg hpf hp, hslot⟩

/-- The frame of a root that is done is destroyed. -/
theorem clean (hh : Heap s) (hfr : s.frames f = some fr) (hdone : fr.status = .done)
    (hroot : fr.root = f) : Heap (s.destroy [f]) := by
  have hnil : fr.tasks = [] := (hh.sound f fr hfr).bare (by rw [hdone]; rfl)
  have hframe : ∀ {x fx}, (s.destroy [f]).frames x = some fx ↔ x ≠ f ∧ s.frames x = some fx := by
    intro x fx
    rw [destroy_frames, List.mem_singleton]
  constructor
  · intro x fx hx
    exact hh.sound x fx (hframe.mp hx).2
  · intro x fx j y hx hy
    have hold := (hframe.mp hx).2
    obtain ⟨ch, hch, hfits⟩ := hh.fits x fx j y hold hy
    refine ⟨ch, hframe.mpr ⟨?_, hch⟩, hfits⟩
    rintro rfl
    exact hh.root_free hfr hroot.symm x j ⟨fx, hold, hy⟩
  · rintro x j x' j' y ⟨fx, hx, hy⟩ ⟨fx', hx', hy'⟩
    exact hh.unique x j x' j' y ⟨fx, (hframe.mp hx).2, hy⟩ ⟨fx', (hframe.mp hx').2, hy'⟩
  · intro x fx hx hne
    obtain ⟨p, j, frp, hp, hslot⟩ := hh.kept x fx (hframe.mp hx).2 hne
    refine ⟨p, j, frp, hframe.mpr ⟨?_, hp⟩, hslot⟩
    rintro rfl
    rw [Option.some.inj (hp.symm.trans hfr), hnil] at hslot
    cases hslot

end Heap

/-! ## Steps -/

section

variable {b : Body T E Q A} {c : Call T E} {gs : List φ}

theorem put_destroy_put (fr : Frame T E Q A φ) {fr' : Frame T E Q A φ} (hout : f ∉ gs) :
    ((s.put f fr).destroy gs).put f fr' = (s.put f fr').destroy gs := by
  apply congrArg State.mk
  funext x
  by_cases hx : x = f
  · subst hx
    simp [State.destroy, hout]
  · simp [State.destroy, hx]

theorem put_comm {fg : Frame T E Q A φ} (hne : f ≠ g) :
    (s.put f fr).put g fg = (s.put g fg).put f fr := by
  apply congrArg State.mk
  exact Function.update_comm hne (some fr) (some fg) s.frames

omit [DecidableEq φ] in
/-- The frames of the local tasks. -/
theorem Heap.task_of_mem (hg : g ∈ fr.tasks.reduceOption) :
    ∃ j : Nat, fr.tasks[j]? = some (some g) :=
  List.mem_iff_getElem?.mp (List.reduceOption_mem_iff.mp hg)

omit [DecidableEq φ] in
theorem Heap.not_mem_tasks (hh : Heap s) (hfr : s.frames f = some fr) :
    f ∉ fr.tasks.reduceOption := by
  intro hin
  obtain ⟨j, hj⟩ := Heap.task_of_mem hin
  exact hh.owner_ne hfr hj rfl

/-- The owner that awaits a coroutine is there when the local tasks of that one
are gone. -/
theorem Heap.caller_kept {p : φ} {frp : Frame T E Q A φ} {k : Outcome T E → Body T E Q A}
    (hh : Heap s) (hfr : s.frames f = some fr) (hstatus : fr.status = .running b)
    (hp : s.frames p = some frp) (hslot : frp.tasks[i]? = some (some f))
    (hjoining : frp.status = .joining i k) :
    ((s.put f (fr.ended c)).destroy fr.tasks.reduceOption).frames p = some frp := by
  refine destroy_frames.mpr ⟨?_, (Function.update_of_ne (hh.owner_ne hp hslot).symm ..).trans hp⟩
  intro hin
  obtain ⟨j, hj⟩ := Heap.task_of_mem hin
  obtain ⟨ch, hch, hidle, _⟩ := hh.task_idle hfr (by rw [hstatus]; rfl) hj
  rw [Option.some.inj (hch.symm.trans hp), hjoining] at hidle
  cases hidle

/-- The end of a body: the root has nowhere to go, and any other coroutine
transfers to its owner. -/
theorem Heap.finish_cases (hh : Heap s) (hfr : s.frames f = some fr)
    (hstatus : fr.status = .running b) (hs : s.finish f fr c = some s') :
    f = fr.root ∧ s' = (s.put f (fr.ended c)).destroy fr.tasks.reduceOption ∨
      ∃ p frp i k, s.frames p = some frp ∧ frp.tasks[i]? = some (some f) ∧
        frp.status = .joining i k ∧
        ((s.put f (fr.ended c)).destroy fr.tasks.reduceOption).frames p = some frp ∧
        s' = ((s.put f (fr.ended c)).destroy fr.tasks.reduceOption).put p
          { frp with status := .joined i k } := by
  have hbusy : fr.status.idle = false := by rw [hstatus]; rfl
  unfold State.finish at hs
  by_cases hroot : f = fr.root
  · rw [(hh.sound f fr hfr).last hroot] at hs
    cases hs
    exact .inl ⟨hroot, rfl⟩
  · obtain ⟨p, frp, i, hp, hslot, hjoins, hcont, _, _⟩ := hh.caller hfr hbusy hroot
    obtain ⟨k, hjoining⟩ := joins_eq hjoins
    have hkeep : ((s.put f (fr.ended c)).destroy fr.tasks.reduceOption).frames p = some frp :=
      hh.caller_kept hfr hstatus hp hslot hjoining
    rw [hcont] at hs
    unfold State.transfer at hs
    simp only [hkeep, hjoining] at hs
    exact .inr ⟨p, frp, i, k, hp, hslot, hjoining, hkeep, (Option.some.inj hs).symm⟩

theorem Heap.finish (hh : Heap s) (hfr : s.frames f = some fr) (hstatus : fr.status = .running b)
    (hs : s.finish f fr c = some s') : Heap s' := by
  have hsound := hh.sound f fr hfr
  have hbusy : fr.status.idle = false := by rw [hstatus]; rfl
  have hjoins : fr.status.joins = none := by rw [hstatus]; rfl
  have hout := hh.not_mem_tasks hfr
  -- First the local tasks go.
  have hbare : Heap ((s.put f { fr with tasks := [] }).destroy fr.tasks.reduceOption) := by
    refine hh.release hfr (hsound.move rfl rfl rfl hbusy ?_) rfl rfl hjoins hjoins rfl rfl ?_ ?_
    · intro i hi
      rw [hjoins] at hi
      cases hi
    · intro j y
      constructor
      · intro hj
        cases hj
      · intro ⟨hj, hnot⟩
        exact absurd (List.reduceOption_mem_iff.mpr (List.mem_of_getElem? hj)) hnot
    · exact fun g => Heap.task_of_mem
  have hnow : ((s.put f { fr with tasks := [] }).destroy fr.tasks.reduceOption).frames f =
      some { fr with tasks := [] } :=
    destroy_frames.mpr ⟨hout, Function.update_self ..⟩
  rcases hh.finish_cases hfr hstatus hs with ⟨hroot, rfl⟩ |
      ⟨p, frp, i, k, hp, hslot, hjoining, hpnow, rfl⟩
  · rw [← put_destroy_put { fr with tasks := [] } hout]
    exact hbare.put hnow hsound.ended rfl rfl rfl hjoins.symm (.inl hroot)
  · have hfp := hh.owner_ne hp hslot
    have hpold : ((s.put f { fr with tasks := [] }).destroy fr.tasks.reduceOption).frames p =
        some frp :=
      destroy_frames.mpr
        ⟨(destroy_frames.mp hpnow).1, (Function.update_of_ne hfp.symm ..).trans hp⟩
    obtain ⟨ch, hch, hfits⟩ := hh.fits p frp i f hp hslot
    obtain rfl : ch = fr := Option.some.inj (hch.symm.trans hfr)
    rw [← put_destroy_put { ch with tasks := [] } hout, put_comm hfp]
    refine hbare.link hpold hnow hslot rfl rfl ?_ hsound.ended rfl rfl rfl ?_ ?_ ?_ ?_
    · exact (hh.sound p frp hp).move rfl rfl rfl rfl fun i hi => by cases hi
    · exact {
        root := hfits.root
        depth := hfits.depth
        busy := by simp [Status.joins, Frame.ended, Status.idle]
        continuation := fun hnot => by cases hnot }
    · intro j hj
      rw [hjoining]
      exact ⟨fun heq => hj (Option.some.inj heq).symm, fun heq => by cases heq⟩
    · rw [hjoining]
      rfl
    · rfl

/-- A coroutine that awaits no task goes on. -/
theorem Heap.goes {st : Status T E Q A} (hh : Heap s) (hfr : s.frames f = some fr)
    (hidle : st.idle = false) (hjoins : st.joins = none) (hbefore : fr.status.joins = none)
    (hseen : f = fr.root ∨ fr.status.idle = false) : Heap (s.put f { fr with status := st }) := by
  refine hh.put hfr ?_ rfl rfl rfl (hjoins.trans hbefore.symm) ?_
  · refine (hh.sound f fr hfr).move rfl rfl rfl hidle ?_
    intro i hi
    rw [hjoins] at hi
    cases hi
  · exact hseen.imp_right fun hbusy => ⟨hidle.trans hbusy.symm, rfl⟩

theorem Heap.run (hh : Heap s) (hfr : s.frames f = some fr) (hs : RunCase unset s f g fr s') :
    Heap s' := by
  have hsound := hh.sound f fr hfr
  cases hs with
  | finish hstatus hb hfinish => exact hh.finish hfr hstatus hfinish
  | ask hstatus =>
    exact hh.goes hfr rfl rfl (by rw [hstatus]; rfl) (.inr (by rw [hstatus]; rfl))
  | @make child rest hstatus hfree =>
    have hnext : Sound f { fr with
        status := Status.running rest
        tasks := fr.tasks ++ [some g] } :=
      hsound.move rfl rfl rfl rfl fun i hi => by cases hi
    refine hh.make hfr hfree hnext rfl rfl rfl ?_ ?_ ?_ ?_ _
    · rw [hstatus]
      rfl
    · rfl
    · rw [hstatus]
      rfl
    · rfl
  | ready hstatus htask hchild hdone =>
    exact hh.goes hfr rfl rfl (by rw [hstatus]; rfl) (.inr (by rw [hstatus]; rfl))
  | @join i k h child b hstatus htask hchild hcreated =>
    obtain ⟨ch, hch, hfits⟩ := hh.fits f fr i h hfr htask
    obtain rfl : ch = child := Option.some.inj (hch.symm.trans hchild)
    have hchsound := hh.sound h ch hch
    have hnil : ch.tasks = [] := hchsound.bare (by rw [hcreated]; rfl)
    refine hh.link hfr hch htask hnil hnil ?_ ?_ rfl rfl rfl ?_ ?_ ?_ ?_
    · exact hsound.move rfl rfl rfl rfl fun j hj => ⟨h, Option.some.inj hj ▸ htask⟩
    · exact {
        slot := fun j hj => by cases hj
        bare := fun hidle => by cases hidle
        fresh := fun b hb => by cases hb
        top := hchsound.top
        last := fun htop => absurd ⟨fr, hfr, htask⟩ (hh.root_free hch htop f i) }
    · exact {
        root := hfits.root
        depth := hfits.depth
        busy := by simp [Status.joins, Status.idle]
        continuation := fun _ => rfl }
    · intro j hj
      rw [hstatus]
      constructor
      · intro heq
        cases heq
      · intro heq
        exact hj (Option.some.inj heq).symm
    · rw [hstatus]
      rfl
    · rfl
  | @drop i rest h hstatus htask =>
    refine hh.release hfr (hsound.move rfl rfl rfl rfl fun i hi => by cases hi) rfl rfl
      ?_ ?_ ?_ ?_ ?_ ?_
    · rw [hstatus]
      rfl
    · rfl
    · rw [hstatus]
      rfl
    · rfl
    · intro j y
      show (fr.tasks.set i none)[j]? = some (some y) ↔ _
      rw [Option.mem_toList]
      by_cases hj : i = j
      · subst hj
        rw [htask, List.getElem?_set_self (List.getElem?_eq_some_iff.mp htask).1]
        constructor
        · intro hnone
          cases hnone
        · intro ⟨hy, hnot⟩
          exact absurd (Option.some.inj hy) hnot
      · rw [List.getElem?_set_ne hj, iff_self_and]
        intro hy hsame
        rw [hsame] at htask
        exact hj (hh.unique f i f j y ⟨fr, hfr, htask⟩ ⟨fr, hfr, hy⟩).2
    · intro g hg
      obtain rfl := Option.mem_toList.mp hg
      exact ⟨i, htask⟩
  | joined hstatus htask hchild =>
    exact hh.goes hfr rfl rfl (by rw [hstatus]; rfl) (.inr (by rw [hstatus]; rfl))

theorem heap_step (hh : Heap s) (hs : step unset s a = some s') : Heap s' := by
  cases step_cases hs with
  | spawn hfree => exact hh.spawn hfree _
  | start hfr hstatus hroot =>
    exact hh.goes hfr rfl rfl (by rw [hstatus]; rfl) (.inl hroot.symm)
  | run hfr hrun => exact hh.run hfr hrun
  | answer hfr hstatus =>
    exact hh.goes hfr rfl rfl (by rw [hstatus]; rfl) (.inr (by rw [hstatus]; rfl))
  | clean hfr hstatus hroot => exact hh.clean hfr hstatus hroot

theorem heap_of_reachable (hr : (machine unset).Reachable s) : Heap s :=
  hr.invariant (I := Heap) (fun _ h0 => h0 ▸ heap_newState) fun _ _ _ _ hh hs => heap_step hh hs

end

end SheepCoro.Calls
