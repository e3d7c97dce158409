import SheepCoro.Spin.Graft
import SheepCoro.Sync.OneList

/-!
# A section is one step

`View` says, position by position, how far the section of a caller has come:
what the memory has and what it has in the state of `Sync` in which the section
has not begun.  An access takes one view to the next (`View.access`).  When the
section is over, the state of `Sync` takes the whole section for one step.

`Follows` ties the two machines together.  The lists of a condition variable
differ only while a caller is inside of its spinlock, and the link of an
awaiter only while the awaiter is in `register_cv` or the last one of such a
list.  No other step looks there.
-/

namespace SheepCoro.Spin

open Lib

open Sync (Good)

variable {ι κ ν : Type} [DecidableEq ι] [DecidableEq κ] [DecidableEq ν]
  {y y' z : Sync.State ι κ ν} {c c' : Sync.State ι κ ν} {f f' : State ι κ ν}
  {x : Caller ι ν} {k : κ} {pc pc' : Pc ι} {i : ι}

/-- The awaiter of a caller, `this` in `register_cv`. -/
def Caller.self : Caller ι ν → Option ι
  | .awaiter i => some i
  | .notifier _ => none

/-- The link of the last awaiter has been stored. -/
def Pc.ties : Pc ι → Bool
  | .moveTail | .linked => true
  | _ => false

/-- The list of `k` is the same. -/
structure SameList (y c : Sync.State ι κ ν) (k : κ) : Prop where
  head : y.cvHead k = c.cvHead k
  tail : y.cvTail k = c.cvTail k

/-- The memory `y` in a section of `k`, and the state `c` before the section. -/
def View (y c : Sync.State ι κ ν) (k : κ) (self : Option ι) : Pc ι → Prop
  | .exchange _ | .load _ => True
  | .readTail | .readHead | .takeHead => SameList y c k
  | .storeTail => SameList y c k ∧ c.cvTail k = none
  | .storeHead => y.cvTail k = self ∧ c.cvTail k = none
  | .loadTail => SameList y c k ∧ c.cvTail k ≠ none
  | .storeNext t => SameList y c k ∧ c.cvTail k = some t
  | .moveTail => SameList y c k ∧ ∃ t, c.cvTail k = some t ∧ y.next t = self
  | .linked => y.cvTail k = self ∧ (c.cvTail k = none ∧ y.cvHead k = self ∨
      ∃ t, c.cvTail k = some t ∧ y.next t = self ∧ y.cvHead k = c.cvHead k)
  | .loadHead a => SameList y c k ∧ c.cvHead k = some a
  | .readNext a b => SameList y c k ∧ c.cvHead k = some a ∧ b = a
  | .storeNextHead a p => SameList y c k ∧ c.cvHead k = some a ∧ c.next a = p
  | .testHead a => c.cvHead k = some a ∧ y.cvHead k = c.next a ∧ y.cvTail k = c.cvTail k
  | .clearTail a => c.cvHead k = some a ∧ c.next a = none ∧ y.cvHead k = none
  | .taken none => SameList y c k ∧ c.cvHead k = none
  | .taken (some a) => c.cvHead k = some a ∧ y.cvHead k = c.next a ∧
      y.cvTail k = if c.next a = none then none else c.cvTail k
  | .dropTail p => SameList y c k ∧ c.cvHead k = p
  | .dropHead p => c.cvHead k = p ∧ y.cvTail k = none
  | .emptied p => c.cvHead k = p ∧ y.cvHead k = none ∧ y.cvTail k = none

omit [DecidableEq ι] [DecidableEq κ] [DecidableEq ν] in
/-- Other memory does not matter to a section. -/
theorem View.congr {self : Option ι} (hv : View y c k self pc) (hhead : y'.cvHead k = y.cvHead k)
    (htail : y'.cvTail k = y.cvTail k) (hchead : c'.cvHead k = c.cvHead k)
    (hctail : c'.cvTail k = c.cvTail k)
    (hlink : ∀ t, c.cvTail k = some t → y'.next t = y.next t)
    (hclink : ∀ a, c.cvHead k = some a → c'.next a = c.next a) : View y' c' k self pc := by
  have hsame : SameList y c k → SameList y' c' k := fun h =>
    ⟨hhead.trans (h.head.trans hchead.symm), htail.trans (h.tail.trans hctail.symm)⟩
  cases pc with
  | exchange | load => trivial
  | readTail | readHead | takeHead => exact hsame hv
  | storeTail | loadTail | storeNext t =>
    refine ⟨hsame hv.1, ?_⟩
    rw [hctail]
    exact hv.2
  | loadHead a | dropTail p =>
    refine ⟨hsame hv.1, ?_⟩
    rw [hchead]
    exact hv.2
  | storeHead => exact ⟨htail.trans hv.1, hctail.trans hv.2⟩
  | moveTail =>
    obtain ⟨hlist, t, ht, hnext⟩ := hv
    exact ⟨hsame hlist, t, hctail.trans ht, (hlink t ht).trans hnext⟩
  | linked =>
    refine ⟨htail.trans hv.1, ?_⟩
    rcases hv.2 with ⟨hnone, hself⟩ | ⟨t, ht, hnext, hself⟩
    · exact .inl ⟨hctail.trans hnone, hhead.trans hself⟩
    · exact .inr ⟨t, hctail.trans ht, (hlink t ht).trans hnext,
        hhead.trans (hself.trans hchead.symm)⟩
  | readNext a b =>
    obtain ⟨hlist, ha, hb⟩ := hv
    exact ⟨hsame hlist, hchead.trans ha, hb⟩
  | storeNextHead a p =>
    obtain ⟨hlist, ha, hp⟩ := hv
    exact ⟨hsame hlist, hchead.trans ha, (hclink a ha).trans hp⟩
  | testHead a =>
    obtain ⟨ha, hnext, htl⟩ := hv
    exact ⟨hchead.trans ha, hhead.trans (hnext.trans (hclink a ha).symm),
      htail.trans (htl.trans hctail.symm)⟩
  | clearTail a =>
    obtain ⟨ha, hnext, hnone⟩ := hv
    exact ⟨hchead.trans ha, (hclink a ha).trans hnext, hhead.trans hnone⟩
  | taken p =>
    cases p with
    | none => exact ⟨hsame hv.1, hchead.trans hv.2⟩
    | some a =>
      obtain ⟨ha, hnext, htl⟩ := hv
      refine ⟨hchead.trans ha, hhead.trans (hnext.trans (hclink a ha).symm), ?_⟩
      rw [hclink a ha, hctail, htail]
      exact htl
  | dropHead p => exact ⟨hchead.trans hv.1, htail.trans hv.2⟩
  | emptied p => exact ⟨hchead.trans hv.1, hhead.trans hv.2.1, htail.trans hv.2.2⟩

/-- What an access leaves alone. -/
structure Keeps (y y' : Sync.State ι κ ν) (k : κ) (pc pc' : Pc ι) : Prop where
  graft : y' = graft y y'.next y'.cvHead y'.cvTail
  head : ∀ k', k' ≠ k → y'.cvHead k' = y.cvHead k'
  tail : ∀ k', k' ≠ k → y'.cvTail k' = y.cvTail k'
  next : ∀ t, pc ≠ .storeNext t → y'.next t = y.next t
  ties : pc.ties = true ∨ (∃ t, pc = .storeNext t) → pc'.ties = true
  inside : pc'.inside = true

omit [DecidableEq ι] [DecidableEq κ] [DecidableEq ν] in
/-- The three parts of the memory that a section writes. -/
theorem Keeps.of_heads {h t : κ → Option ι} (hhead : ∀ k', k' ≠ k → h k' = y.cvHead k')
    (htail : ∀ k', k' ≠ k → t k' = y.cvTail k')
    (hties : pc.ties = true ∨ (∃ t, pc = .storeNext t) → pc'.ties = true)
    (hin : pc'.inside = true) : Keeps y { y with cvHead := h, cvTail := t } k pc pc' :=
  ⟨rfl, hhead, htail, fun _ _ => rfl, hties, hin⟩

omit [DecidableEq ν] in
theorem access_keeps (hs : access y k x pc = some (y', pc')) : Keeps y y' k pc pc' := by
  have hold : ∀ {h : κ → Option ι} {p : Option ι} (k' : κ), k' ≠ k →
      Function.update h k p k' = h k' := fun k' hne => Function.update_of_ne hne ..
  have hsame : ∀ {h : κ → Option ι} (k' : κ), k' ≠ k → h k' = h k' := fun _ _ => rfl
  cases x with
  | awaiter i =>
    cases pc with
    | readTail =>
      cases hs
      exact .of_heads hsame hsame (by simp [Pc.ties]) (by split_ifs <;> rfl)
    | storeTail =>
      cases hs
      exact .of_heads hsame hold (by simp [Pc.ties]) rfl
    | storeHead =>
      cases hs
      exact .of_heads hold hsame (fun _ => rfl) rfl
    | loadTail =>
      obtain ⟨t, _, ⟨⟩⟩ := Option.map_eq_some_iff.mp hs
      exact .of_heads hsame hsame (by simp [Pc.ties]) rfl
    | storeNext t =>
      cases hs
      refine ⟨rfl, hsame, hsame, ?_, fun _ => rfl, rfl⟩
      intro b hb
      have hne : b ≠ t := by
        rintro rfl
        exact hb rfl
      exact Function.update_of_ne hne ..
    | moveTail =>
      cases hs
      exact .of_heads hsame hold (fun _ => rfl) rfl
    | _ => cases hs
  | notifier m =>
    cases pc with
    | readHead =>
      cases hs
      refine .of_heads hsame hsame (by simp [Pc.ties]) ?_
      cases y.cvHead k <;> rfl
    | loadHead a =>
      obtain ⟨b, _, ⟨⟩⟩ := Option.map_eq_some_iff.mp hs
      exact .of_heads hsame hsame (by simp [Pc.ties]) rfl
    | testHead a =>
      cases hs
      exact .of_heads hsame hsame (by simp [Pc.ties]) (by split_ifs <;> rfl)
    | readNext | takeHead =>
      cases hs
      exact .of_heads hsame hsame (by simp [Pc.ties]) rfl
    | storeNextHead | dropHead =>
      cases hs
      exact .of_heads hold hsame (by simp [Pc.ties]) rfl
    | clearTail | dropTail =>
      cases hs
      exact .of_heads hsame hold (by simp [Pc.ties]) rfl
    | _ => cases hs

omit [DecidableEq ν] in
/-- An access takes the section one position further. -/
theorem View.access (hv : View y c k x.self pc) (hs : access y k x pc = some (y', pc'))
    (hlink : pc.ties = false → ∀ a, c.cvHead k = some a → y.next a = c.next a) :
    View y' c k x.self pc' := by
  cases x with
  | awaiter i =>
    cases pc with
    | readTail =>
      cases hs
      split_ifs with hnone
      · exact ⟨hv, hv.tail.symm.trans hnone⟩
      · exact ⟨hv, fun heq => hnone (hv.tail.trans heq)⟩
    | storeTail =>
      cases hs
      exact ⟨Function.update_self .., hv.2⟩
    | storeHead =>
      cases hs
      exact ⟨hv.1, .inl ⟨hv.2, Function.update_self ..⟩⟩
    | loadTail =>
      obtain ⟨t, ht, ⟨⟩⟩ := Option.map_eq_some_iff.mp hs
      exact ⟨hv.1, hv.1.tail.symm.trans ht⟩
    | storeNext t =>
      cases hs
      exact ⟨⟨hv.1.head, hv.1.tail⟩, t, hv.2, Function.update_self ..⟩
    | moveTail =>
      obtain ⟨hlist, t, ht, hnext⟩ := hv
      cases hs
      exact ⟨Function.update_self .., .inr ⟨t, ht, hnext, hlist.head⟩⟩
    | _ => cases hs
  | notifier m =>
    cases pc with
    | readHead =>
      cases hs
      cases hhead : y.cvHead k with
      | none => exact ⟨hv, hv.head.symm.trans hhead⟩
      | some a => exact ⟨hv, hv.head.symm.trans hhead⟩
    | loadHead a =>
      obtain ⟨b, hb, ⟨⟩⟩ := Option.map_eq_some_iff.mp hs
      refine ⟨hv.1, hv.2, ?_⟩
      exact Option.some.inj (hb.symm.trans (hv.1.head.trans hv.2))
    | readNext a b =>
      obtain ⟨hlist, ha, rfl⟩ := hv
      cases hs
      exact ⟨hlist, ha, (hlink rfl b ha).symm⟩
    | storeNextHead a p =>
      obtain ⟨hlist, ha, hp⟩ := hv
      cases hs
      exact ⟨ha, (Function.update_self ..).trans hp.symm, hlist.tail⟩
    | testHead a =>
      obtain ⟨ha, hnext, htail⟩ := hv
      cases hs
      split_ifs with hnone
      · exact ⟨ha, hnext.symm.trans hnone, hnone⟩
      · refine ⟨ha, hnext, ?_⟩
        rw [if_neg fun heq => hnone (hnext.trans heq)]
        exact htail
    | clearTail a =>
      obtain ⟨ha, hnext, hnone⟩ := hv
      cases hs
      refine ⟨ha, hnone.trans hnext.symm, ?_⟩
      rw [if_pos hnext]
      exact Function.update_self ..
    | takeHead =>
      cases hs
      exact ⟨hv, hv.head.symm⟩
    | dropTail p =>
      cases hs
      exact ⟨hv.2, Function.update_self ..⟩
    | dropHead p =>
      cases hs
      exact ⟨hv.1, Function.update_self .., hv.2⟩
    | _ => cases hs

/-! ## The two machines -/

/-- Inside of which spinlock a position is. -/
def insideOf : Option (κ × Pc ι) → Option κ
  | some (k, pc) => if pc.inside then some k else none
  | none => none

/-- The state `c` of `Sync` has the sections that are over, and `f` is in the
middle of others. -/
structure Follows (f : State ι κ ν) (c : Sync.State ι κ ν) : Prop where
  graft : c = graft f.sync c.next c.cvHead c.cvTail
  guarded : Guarded f.lock fun x => insideOf (f.pos x)
  awaiter : ∀ i k pc, f.pos (.awaiter i) = some (k, pc) → f.sync.hold i = .registerCv ∧
    (∃ hasCond, f.sync.kind i = .cvAwaiter k hasCond) ∧ f.sync.next i = none
  notifier : ∀ m k pc, f.pos (.notifier m) = some (k, pc) → f.sync.curHead m = none
  next : ∀ i, f.sync.hold i ≠ .registerCv →
    (∀ x k pc, f.pos x = some (k, pc) → pc.ties = true → c.cvTail k ≠ some i) →
    f.sync.next i = c.next i
  idle : ∀ k, f.lock k = false → SameList f.sync c k
  view : ∀ x k pc, f.pos x = some (k, pc) → View f.sync c k x.self pc

omit [DecidableEq ι] [DecidableEq κ] in
theorem insideOf_some (hin : pc.inside = true) : insideOf (some (k, pc)) = some k := if_pos hin

omit [DecidableEq ι] [DecidableEq κ] in
theorem insideOf_none (hin : pc.inside = false) : insideOf (some (k, pc)) = none := by
  show (if pc.inside = true then some k else none) = none
  rw [hin]
  rfl

omit [DecidableEq ι] [DecidableEq κ] [DecidableEq ν] in
theorem View.outside {self : Option ι} (hin : pc.inside = false) : View y c k self pc := by
  cases pc with
  | exchange | load => trivial
  | _ => cases hin

omit [DecidableEq ι] in
theorem Pc.ties_inside (h : pc.ties = true) : pc.inside = true := by
  cases pc with
  | moveTail | linked => rfl
  | _ => cases h

omit [DecidableEq κ] in
/-- A caller comes to another position. -/
theorem guarded_goto {lock : κ → Bool} {pos : Caller ι ν → Option (κ × Pc ι)}
    {p : Option (κ × Pc ι)} (h : Guarded lock fun x => insideOf (pos x))
    (hp : insideOf p = insideOf (pos x)) :
    Guarded lock fun z => insideOf (Function.update pos x p z) := by
  have hsame : (fun z => insideOf (Function.update pos x p z)) = fun z => insideOf (pos z) := by
    funext z
    by_cases hz : z = x
    · subst hz
      rw [Function.update_self, hp]
    · rw [Function.update_of_ne hz]
  rw [hsame]
  exact h

namespace Follows

section

omit [DecidableEq ι] [DecidableEq κ] [DecidableEq ν]

theorem hold (h : Follows f c) (i : ι) : c.hold i = f.sync.hold i := by rw [h.graft]; rfl

theorem loc (h : Follows f c) (i : ι) : c.loc i = f.sync.loc i := by rw [h.graft]; rfl

/-- Who is in `register_cv` is on no list. -/
theorem registering (h : Follows f c) (hg : Good c) (hi : f.sync.hold i = .registerCv) :
    c.loc i = .none :=
  hg.loc_eq_none (by rw [h.hold, hi]; trivial)

/-- The last awaiter of a list is not in `register_cv`. -/
theorem tail_ne (h : Follows f c) (hg : Good c) {t : ι} (hi : f.sync.hold i = .registerCv)
    (ht : c.cvTail k = some t) : i ≠ t := by
  rintro rfl
  have hparked := tail_parked hg ht
  rw [h.registering hg hi] at hparked
  cases hparked

/-- Two callers inside of one spinlock are one. -/
theorem alone (h : Follows f c) {x' : Caller ι ν} (hpos : f.pos x = some (k, pc))
    (hin : pc.inside = true) (hpos' : f.pos x' = some (k, pc')) (hin' : pc'.inside = true) :
    x' = x :=
  h.guarded.unique (x := x') (k := k) (by rw [hpos']; exact insideOf_some hin')
    (by rw [hpos]; exact insideOf_some hin)

/-- Nobody is inside of a spinlock that is free. -/
theorem outside (h : Follows f c) (hlock : f.lock k = false) (hpos : f.pos x = some (k, pc)) :
    pc.inside = false := by
  by_contra hin
  rw [Bool.not_eq_false] at hin
  exact h.guarded.vacant hlock x (by rw [hpos]; exact insideOf_some hin)

/-- The first awaiter of a list has its link. -/
theorem head_next (h : Follows f c) (hg : Good c) {a : ι} (ha : c.cvHead k = some a)
    (hno : ∀ x k' pc, f.pos x = some (k', pc) → pc.ties = true → c.cvTail k' ≠ some a) :
    f.sync.next a = c.next a := by
  refine h.next a ?_ hno
  intro hi
  have hparked := hg.cvHead_parked ha
  rw [h.registering hg hi] at hparked
  cases hparked

end

/-- A step outside of the sections is one of `Sync`. -/
theorem sync {a : Sync.Label ι κ ν} (h : Follows f c) (hg : Good c)
    (houtside : Spin.outside f.sync a = true) (hs : Sync.step f.sync a = some y) :
    ∃ c', Sync.step c a = some c' ∧ Follows { f with sync := y } c' := by
  have hgraft := h.graft
  have hg' : Good (Spin.graft f.sync c.next c.cvHead c.cvTail) := hgraft ▸ hg
  have hfree : ∀ i, touched f.sync a = some i →
      (∀ k, f.sync.loc i ≠ .parked k) ∧ f.sync.hold i ≠ .registerCv :=
    fun i hi => touched_free hg' houtside hs hi
  have htail : ∀ {i k}, c.cvTail k = some i → touched f.sync a ≠ some i := by
    intro i k ht htouched
    exact (hfree i htouched).1 k (h.loc i ▸ tail_parked hg ht)
  obtain ⟨n', hstep, hgrafts⟩ := step_graft (h := c.cvHead) (t := c.cvTail) houtside hs
    (n := c.next) fun i hi => (h.next i (hfree i hi).2 fun _ _ _ _ _ ht => htail ht hi).symm
  rw [← hgraft] at hstep
  have hreg : ∀ {i}, f.sync.hold i = .registerCv → y.hold i = .registerCv := by
    intro i hi
    rcases hg.registering_step ((h.hold i).trans hi) hstep with hkeep | rfl
    · exact hkeep
    · cases houtside
  refine ⟨Spin.graft y n' c.cvHead c.cvTail, hstep, rfl, h.guarded, ?_, ?_, ?_, ?_, ?_⟩
  · intro i k pc hpos
    obtain ⟨hi, ⟨hasCond, hkind⟩, hnext⟩ := h.awaiter i k pc hpos
    refine ⟨hreg hi, ⟨hasCond, ?_⟩, ?_⟩
    · rcases Sync.step_kind (j := i) hs with hsame | ⟨rfl, hnone, _⟩ | ⟨k', hasCond', rfl, _⟩
      · exact hsame.trans hkind
      · rw [hi] at hnone
        cases hnone
      · obtain ⟨hinside, _⟩ := Option.ite_none_right_eq_some.mp hs
        rw [hi] at hinside
        cases hinside
    · exact (hgrafts.others i fun htouched => (hfree i htouched).2 hi).2.trans hnext
  · exact fun m k pc hpos => hgrafts.curHead m (h.notifier m k pc hpos)
  · intro i hi hno
    by_cases htouched : touched f.sync a = some i
    · exact (hgrafts.same i htouched).symm
    · obtain ⟨hc, hf⟩ := hgrafts.others i htouched
      show y.next i = n' i
      rw [hf, hc]
      exact h.next i (fun hold => hi (hreg hold)) hno
  · exact fun k hk =>
      ⟨(congrFun hgrafts.head k).trans (h.idle k hk).head,
        (congrFun hgrafts.tail k).trans (h.idle k hk).tail⟩
  · intro x k pc hpos
    refine (h.view x k pc hpos).congr (congrFun hgrafts.head k) (congrFun hgrafts.tail k) rfl rfl
      ?_ ?_
    · exact fun t ht => (hgrafts.others t (htail ht)).2
    · intro b hb
      have hparked := hg.cvHead_parked hb
      exact (hgrafts.others b fun htouched => (hfree b htouched).1 k (h.loc b ▸ hparked)).1

omit [DecidableEq κ] in
/-- A caller comes to a position outside of the spinlock; the memory stays. -/
theorem goto (h : Follows f c) (hin : pc'.inside = false)
    (hpos : ∀ k₀ pc, f.pos x = some (k₀, pc) → k₀ = k ∧ pc.inside = false)
    (hawaiter : ∀ i, x = .awaiter i → f.sync.hold i = .registerCv ∧
      (∃ hasCond, f.sync.kind i = .cvAwaiter k hasCond) ∧ f.sync.next i = none)
    (hnotifier : ∀ m, x = .notifier m → f.sync.curHead m = none) :
    Follows (f.goto x k pc') c := by
  have hold : ∀ {z k₀ pc}, (f.goto x k pc').pos z = some (k₀, pc) →
      z = x ∧ k₀ = k ∧ pc = pc' ∨ f.pos z = some (k₀, pc) := by
    intro z k₀ pc hz
    rcases update_eq_iff.mp hz with ⟨hzx, heq⟩ | ⟨_, hz⟩
    · cases heq
      exact .inl ⟨hzx, rfl, rfl⟩
    · exact .inr hz
  have hinside : insideOf (some (k, pc')) = insideOf (f.pos x) := by
    rw [insideOf_none hin]
    cases hx : f.pos x with
    | none => rfl
    | some p => exact (insideOf_none (hpos p.1 p.2 hx).2).symm
  refine ⟨h.graft, guarded_goto h.guarded hinside, ?_, ?_, ?_, h.idle, ?_⟩
  · intro i k₀ pc hi
    rcases hold hi with ⟨hx, rfl, rfl⟩ | hi
    · exact hawaiter i hx.symm
    · exact h.awaiter i k₀ pc hi
  · intro m k₀ pc hm
    rcases hold hm with ⟨hx, _, _⟩ | hm
    · exact hnotifier m hx.symm
    · exact h.notifier m k₀ pc hm
  · intro i hi hno
    refine h.next i hi ?_
    intro z k₀ pc hz hties
    have hne : z ≠ x := by
      rintro rfl
      have hinz := Pc.ties_inside hties
      rw [(hpos k₀ pc hz).2] at hinz
      cases hinz
    exact hno z k₀ pc ((Function.update_of_ne hne ..).trans hz) hties
  · intro z k₀ pc hz
    rcases hold hz with ⟨_, _, rfl⟩ | hz
    · exact View.outside hin
    · exact h.view z k₀ pc hz

omit [DecidableEq κ] in
/-- The call of `register_cv`. -/
theorem registerCv {hasCond : Bool} (h : Follows f c) (hg : Good c)
    (hhold : f.sync.hold i = .registerCv) (hkind : f.sync.kind i = .cvAwaiter k hasCond)
    (hpos : f.pos (.awaiter i) = none) :
    Follows ({ f with sync := f.sync.setNext i none }.goto (.awaiter i) k
      (.exchange .registerCv)) c := by
  have hstored : Follows { f with sync := f.sync.setNext i none } c := by
    have hnext : ∀ {j}, j ≠ i → (f.sync.setNext i none).next j = f.sync.next j :=
      fun hj => Function.update_of_ne hj ..
    refine ⟨h.graft, h.guarded, ?_, h.notifier, ?_, fun k hk => ?_, ?_⟩
    · intro j k₀ pc hj
      obtain ⟨hi, hk, hnone⟩ := h.awaiter j k₀ pc hj
      refine ⟨hi, hk, ?_⟩
      by_cases hji : j = i
      · rw [hji]
        exact Function.update_self ..
      · exact (hnext hji).trans hnone
    · intro j hj hno
      have hji : j ≠ i := by
        rintro rfl
        exact hj hhold
      exact (hnext hji).trans (h.next j hj hno)
    · exact ⟨(h.idle k hk).head, (h.idle k hk).tail⟩
    · intro z k₀ pc hz
      refine (h.view z k₀ pc hz).congr rfl rfl rfl rfl ?_ fun _ _ => rfl
      intro t ht
      exact hnext (h.tail_ne hg hhold ht).symm
  refine hstored.goto rfl ?_ ?_ ?_
  · intro k₀ pc hx
    rw [show f.pos (.awaiter i) = _ from hx] at hpos
    cases hpos
  · rintro j ⟨⟩
    exact ⟨hhold, ⟨hasCond, hkind⟩, Function.update_self ..⟩
  · rintro m ⟨⟩

/-- A caller gets the spinlock. -/
theorem enter {op : Op} (h : Follows f c) (hpos : f.pos x = some (k, .exchange op))
    (hlock : f.lock k = false) :
    Follows ({ f with lock := Function.update f.lock k true }.goto x k op.first) c := by
  have hold : ∀ {z k₀ pc}, Function.update f.pos x (some (k, op.first)) z = some (k₀, pc) →
      z = x ∧ k₀ = k ∧ pc = op.first ∨ z ≠ x ∧ f.pos z = some (k₀, pc) := by
    intro z k₀ pc hz
    rcases update_eq_iff.mp hz with ⟨hzx, heq⟩ | hz
    · cases heq
      exact .inl ⟨hzx, rfl, rfl⟩
    · exact .inr hz
  have hfirst : (op.first : Pc ι).inside = true ∧ (op.first : Pc ι).ties = false := by
    cases op <;> exact ⟨rfl, rfl⟩
  refine ⟨h.graft, ?_, ?_, ?_, ?_, ?_, ?_⟩
  · have hguarded := h.guarded.enter (x := x) (k := k) (by rw [hpos]; exact insideOf_none rfl) hlock
    have hsame : (fun z => insideOf (Function.update f.pos x (some (k, op.first)) z)) =
        Function.update (fun z => insideOf (f.pos z)) x (some k) := by
      funext z
      by_cases hz : z = x
      · subst hz
        rw [Function.update_self, Function.update_self, insideOf_some hfirst.1]
      · rw [Function.update_of_ne hz, Function.update_of_ne hz]
    show Guarded _ fun z => insideOf (Function.update f.pos x (some (k, op.first)) z)
    rw [hsame]
    exact hguarded
  · intro i k₀ pc hi
    rcases hold hi with ⟨rfl, rfl, _⟩ | ⟨_, hi⟩
    · exact h.awaiter i k₀ _ hpos
    · exact h.awaiter i k₀ pc hi
  · intro m k₀ pc hm
    rcases hold hm with ⟨rfl, rfl, _⟩ | ⟨_, hm⟩
    · exact h.notifier m k₀ _ hpos
    · exact h.notifier m k₀ pc hm
  · intro i hi hno
    refine h.next i hi ?_
    intro z k₀ pc hz hties
    have hne : z ≠ x := by
      rintro rfl
      rw [hpos] at hz
      cases hz
      cases hties
    exact hno z k₀ pc ((Function.update_of_ne hne ..).trans hz) hties
  · intro k₀ hk
    have hne : k₀ ≠ k := by
      rintro rfl
      have hset : Function.update f.lock k₀ true k₀ = false := hk
      rw [Function.update_self] at hset
      cases hset
    exact h.idle k₀ ((Function.update_of_ne hne ..).symm.trans hk)
  · intro z k₀ pc hz
    rcases hold hz with ⟨_, rfl, rfl⟩ | ⟨_, hz⟩
    · have hlist := h.idle k₀ hlock
      cases op <;> exact hlist
    · exact h.view z k₀ pc hz

/-- An access behind the spinlock. -/
theorem access (h : Follows f c) (hg : Good c) (hpos : f.pos x = some (k, pc))
    (hin : pc.inside = true) (hs : access f.sync k x pc = some (y, pc')) :
    Follows ({ f with sync := y }.goto x k pc') c := by
  have hkeeps := access_keeps hs
  have hview := h.view x k pc hpos
  -- The link that the access may store is that of the last awaiter of the list.
  have hstores : ∀ {t}, pc = .storeNext t → c.cvTail k = some t := by
    rintro t rfl
    exact hview.2
  have hold : ∀ {z k₀ pc₀}, Function.update f.pos x (some (k, pc')) z = some (k₀, pc₀) →
      z = x ∧ k₀ = k ∧ pc₀ = pc' ∨ z ≠ x ∧ f.pos z = some (k₀, pc₀) := by
    intro z k₀ pc₀ hz
    rcases update_eq_iff.mp hz with ⟨hzx, heq⟩ | hz
    · cases heq
      exact .inl ⟨hzx, rfl, rfl⟩
    · exact .inr hz
  refine ⟨?_, ?_, ?_, ?_, ?_, ?_, ?_⟩
  · show c = Spin.graft y c.next c.cvHead c.cvTail
    rw [hkeeps.graft]
    exact h.graft
  · refine guarded_goto h.guarded ?_
    rw [hpos, insideOf_some hin, insideOf_some hkeeps.inside]
  · intro i k₀ pc₀ hi
    have hbefore : ∃ pc₁, f.pos (.awaiter i) = some (k₀, pc₁) := by
      rcases hold hi with ⟨rfl, rfl, _⟩ | ⟨_, hi⟩
      · exact ⟨pc, hpos⟩
      · exact ⟨pc₀, hi⟩
    obtain ⟨pc₁, hi⟩ := hbefore
    obtain ⟨hhold, hkind, hnone⟩ := h.awaiter i k₀ pc₁ hi
    refine ⟨?_, ?_, ?_⟩
    · show y.hold i = .registerCv
      rw [hkeeps.graft]
      exact hhold
    · show ∃ hasCond, y.kind i = .cvAwaiter k₀ hasCond
      rw [hkeeps.graft]
      exact hkind
    · refine (hkeeps.next i ?_).trans hnone
      intro hpc
      exact h.tail_ne hg hhold (hstores hpc) rfl
  · intro m k₀ pc₀ hm
    have hcur : y.curHead = f.sync.curHead := by rw [hkeeps.graft]; rfl
    show y.curHead m = none
    rw [hcur]
    rcases hold hm with ⟨rfl, rfl, _⟩ | ⟨_, hm⟩
    · exact h.notifier m k₀ pc hpos
    · exact h.notifier m k₀ pc₀ hm
  · intro i hi hno
    have hhold : y.hold = f.sync.hold := by rw [hkeeps.graft]; rfl
    have hmine := hno x k pc' (Function.update_self ..)
    refine (hkeeps.next i ?_).trans (h.next i ?_ ?_)
    · intro hpc
      exact hmine (hkeeps.ties (.inr ⟨i, hpc⟩)) (hstores hpc)
    · rw [← hhold]
      exact hi
    · intro z k₀ pc₀ hz hties
      by_cases hzx : z = x
      · subst hzx
        rw [hpos] at hz
        cases hz
        exact hmine (hkeeps.ties (.inl hties))
      · exact hno z k₀ pc₀ ((Function.update_of_ne hzx ..).trans hz) hties
  · intro k₀ hk
    have hne : k₀ ≠ k := by
      rintro rfl
      rw [h.outside hk hpos] at hin
      cases hin
    exact ⟨(hkeeps.head k₀ hne).trans (h.idle k₀ hk).head,
      (hkeeps.tail k₀ hne).trans (h.idle k₀ hk).tail⟩
  · intro z k₀ pc₀ hnew
    rcases hold hnew with ⟨rfl, rfl, rfl⟩ | ⟨hzx, hz⟩
    · refine View.access hview hs ?_
      intro hties a ha
      refine h.head_next hg ha ?_
      intro w k₁ pc₁ hw hties' ht
      have hparked := tail_parked hg ht
      rw [hg.cvHead_parked ha] at hparked
      cases hparked
      obtain rfl := h.alone hpos hin hw (Pc.ties_inside hties')
      rw [hpos] at hw
      cases hw
      rw [hties] at hties'
      cases hties'
    · by_cases hin₀ : pc₀.inside = true
      · have hne : k₀ ≠ k := by
          rintro rfl
          exact hzx (h.alone hpos hin hz hin₀)
        refine (h.view z k₀ pc₀ hz).congr (hkeeps.head k₀ hne) (hkeeps.tail k₀ hne) rfl rfl ?_
          fun _ _ => rfl
        intro t ht
        refine hkeeps.next t ?_
        intro hpc
        have hparked := tail_parked hg (hstores hpc)
        rw [tail_parked hg ht] at hparked
        cases hparked
        exact hne rfl
      · exact View.outside (Bool.not_eq_true _ ▸ hin₀)

/-- The section of `x` is over. -/
theorem leave (h : Follows f c) (hg : Good c) (hpos : f.pos x = some (k, pc))
    (hin : pc.inside = true) (hgraft : c' = Spin.graft y c'.next c'.cvHead c'.cvTail)
    (hlists : y.next = f.sync.next ∧ y.cvHead = f.sync.cvHead ∧ y.cvTail = f.sync.cvTail)
    (hkind : y.kind = f.sync.kind)
    (hhold : ∀ i, .awaiter i ≠ x → y.hold i = f.sync.hold i)
    (hcur : ∀ m, .notifier m ≠ x → y.curHead m = f.sync.curHead m)
    (hlist : SameList f.sync c' k)
    (hothers : ∀ k', k' ≠ k → c'.cvHead k' = c.cvHead k' ∧ c'.cvTail k' = c.cvTail k')
    (hparked : ∀ i k', k' ≠ k → c.loc i = .parked k' → c'.next i = c.next i)
    (hnext : ∀ i, y.hold i ≠ .registerCv → (∀ z k₀ pc₀, z ≠ x → f.pos z = some (k₀, pc₀) →
      pc₀.ties = true → c.cvTail k₀ ≠ some i) → f.sync.next i = c'.next i) :
    Follows {
      sync := y
      lock := Function.update f.lock k false
      pos := Function.update f.pos x none } c' := by
  obtain ⟨hlink, hhead, htail⟩ := hlists
  have hold : ∀ {z p}, Function.update f.pos x none z = some p → z ≠ x ∧ f.pos z = some p := by
    intro z p hz
    rcases update_eq_iff.mp hz with ⟨_, heq⟩ | hz
    · cases heq
    · exact hz
  -- Whoever else is inside of a spinlock is inside of another one.
  have hapart : ∀ {z k₀ pc₀}, z ≠ x → f.pos z = some (k₀, pc₀) → pc₀.inside = true → k₀ ≠ k := by
    rintro z k₀ pc₀ hzx hz hin₀ rfl
    exact hzx (h.alone hpos hin hz hin₀)
  refine ⟨hgraft, ?_, ?_, ?_, ?_, ?_, ?_⟩
  · have hguarded := h.guarded.leave (x := x) (k := k) (by rw [hpos]; exact insideOf_some hin)
    have hsame : (fun z => insideOf (Function.update f.pos x none z)) =
        Function.update (fun z => insideOf (f.pos z)) x none := by
      funext z
      by_cases hz : z = x
      · subst hz
        rw [Function.update_self, Function.update_self]
        rfl
      · rw [Function.update_of_ne hz, Function.update_of_ne hz]
    show Guarded _ fun z => insideOf (Function.update f.pos x none z)
    rw [hsame]
    exact hguarded
  · intro i k₀ pc₀ hi
    obtain ⟨hne, hi⟩ := hold hi
    obtain ⟨hreg, hcond, hnone⟩ := h.awaiter i k₀ pc₀ hi
    exact ⟨(hhold i hne).trans hreg, hkind ▸ hcond, hlink ▸ hnone⟩
  · intro m k₀ pc₀ hm
    obtain ⟨hne, hm⟩ := hold hm
    exact (hcur m hne).trans (h.notifier m k₀ pc₀ hm)
  · intro i hi hno
    show y.next i = c'.next i
    rw [hlink]
    refine hnext i hi ?_
    intro z k₀ pc₀ hzx hz hties
    rw [← (hothers k₀ (hapart hzx hz (Pc.ties_inside hties))).2]
    exact hno z k₀ pc₀ ((Function.update_of_ne hzx ..).trans hz) hties
  · intro k₀ hk
    show SameList y c' k₀
    by_cases hk₀ : k₀ = k
    · subst hk₀
      exact ⟨hhead ▸ hlist.head, htail ▸ hlist.tail⟩
    · have hfree : f.lock k₀ = false := (Function.update_of_ne hk₀ ..).symm.trans hk
      obtain ⟨hch, hct⟩ := hothers k₀ hk₀
      exact ⟨hhead ▸ (h.idle k₀ hfree).head.trans hch.symm,
        htail ▸ (h.idle k₀ hfree).tail.trans hct.symm⟩
  · intro z k₀ pc₀ hz
    obtain ⟨hne, hz⟩ := hold hz
    by_cases hin₀ : pc₀.inside = true
    · have hk₀ := hapart hne hz hin₀
      obtain ⟨hch, hct⟩ := hothers k₀ hk₀
      refine (h.view z k₀ pc₀ hz).congr (congrFun hhead k₀) (congrFun htail k₀) hch hct ?_ ?_
      · exact fun t _ => congrFun hlink t
      · exact fun a ha => hparked a k₀ hk₀ (hg.cvHead_parked ha)
    · exact View.outside (Bool.not_eq_true _ ▸ hin₀)

/-- The section of `register_cv` is the step of `Sync`. -/
theorem unlock_registerCv (h : Follows f c) (hg : Good c)
    (hpos : f.pos (.awaiter i) = some (k, .linked)) :
    Sync.step c (.registerCv i) = some (Sync.registerCv c i k) ∧ Follows {
      sync := (f.sync.setHold i .readResumeList).setLoc i (.parked k)
      lock := Function.update f.lock k false
      pos := Function.update f.pos (.awaiter i) none } (Sync.registerCv c i k) := by
  obtain ⟨hhold, ⟨hasCond, hkind⟩, hnone⟩ := h.awaiter i k _ hpos
  have hstep : Sync.step c (.registerCv i) = some (Sync.registerCv c i k) := by
    have hkind' : c.kind i = .cvAwaiter k hasCond := by rw [h.graft]; exact hkind
    simp only [Sync.step, (h.hold i).trans hhold, hkind']
  refine ⟨hstep, ?_⟩
  have hloc := h.registering hg hhold
  have hparked : ∀ {j k'}, c.loc j = .parked k' → j ≠ i := by
    rintro j k' hj rfl
    rw [hloc] at hj
    cases hj
  have hholds : ∀ j, Caller.awaiter j ≠ (Caller.awaiter i : Caller ι ν) →
      Function.update f.sync.hold i .readResumeList j = f.sync.hold j := by
    intro j hj
    refine Function.update_of_ne ?_ ..
    rintro rfl
    exact hj rfl
  have hregisters : ∀ {j}, j ≠ i →
      Function.update f.sync.hold i .readResumeList j ≠ .registerCv →
      f.sync.hold j ≠ .registerCv := by
    intro j hji hj
    rwa [Function.update_of_ne hji] at hj
  obtain ⟨hself, hcase⟩ := h.view _ k _ hpos
  rcases hcase with ⟨htail, hhead⟩ | ⟨t, htail, hlink, hhead⟩
  · rw [registerCv_empty htail, graft_core h.graft]
    refine h.leave hg hpos rfl rfl ⟨rfl, rfl, rfl⟩ rfl hholds (fun _ _ => rfl) ?_ ?_ ?_ ?_
    · constructor
      · rw [hhead, graft_cvHead, Function.update_self]
        rfl
      · rw [hself, graft_cvTail, Function.update_self]
        rfl
    · exact fun k' hk' => ⟨Function.update_of_ne hk' .., Function.update_of_ne hk' ..⟩
    · exact fun j k' _ hj => Function.update_of_ne (hparked hj) ..
    · intro j hj hno
      by_cases hji : j = i
      · rw [hji, hnone, graft_next, Function.update_self]
      · refine (h.next j (hregisters hji hj) ?_).trans (Function.update_of_ne hji ..).symm
        intro z k₀ pc₀ hz hties ht
        by_cases hzx : z = .awaiter i
        · subst hzx
          rw [hpos] at hz
          cases hz
          rw [htail] at ht
          cases ht
        · exact hno z k₀ pc₀ hzx hz hties ht
  · have hit := h.tail_ne hg hhold htail
    rw [registerCv_behind htail, graft_core h.graft]
    refine h.leave hg hpos rfl rfl ⟨rfl, rfl, rfl⟩ rfl hholds (fun _ _ => rfl) ?_ ?_ ?_ ?_
    · constructor
      · rw [hhead, graft_cvHead]
      · rw [hself, graft_cvTail, Function.update_self]
        rfl
    · exact fun k' hk' => ⟨rfl, Function.update_of_ne hk' ..⟩
    · intro j k' hk' hj
      have hjt : j ≠ t := by
        rintro rfl
        rw [tail_parked hg htail] at hj
        cases hj
        exact hk' rfl
      exact (Function.update_of_ne hjt ..).trans (Function.update_of_ne (hparked hj) ..)
    · intro j hj hno
      rw [graft_next]
      by_cases hjt : j = t
      · rw [hjt, hlink, Function.update_self]
        rfl
      · rw [Function.update_of_ne hjt]
        by_cases hji : j = i
        · rw [hji, hnone, Function.update_self]
        · refine (h.next j (hregisters hji hj) ?_).trans (Function.update_of_ne hji ..).symm
          intro z k₀ pc₀ hz hties ht
          by_cases hzx : z = .awaiter i
          · subst hzx
            rw [hpos] at hz
            cases hz
            exact hjt (Option.some.inj (ht.symm.trans htail))
          · exact hno z k₀ pc₀ hzx hz hties ht

/-- A notification leaves the links alone. -/
theorem leave_notifier {m : ν} (h : Follows f c) (hg : Good c)
    (hpos : f.pos (.notifier m) = some (k, pc)) (hin : pc.inside = true)
    (hties : pc.ties = false) (hgraft : c' = Spin.graft y c'.next c'.cvHead c'.cvTail)
    (hlists : y.next = f.sync.next ∧ y.cvHead = f.sync.cvHead ∧ y.cvTail = f.sync.cvTail)
    (hkind : y.kind = f.sync.kind) (hhold : y.hold = f.sync.hold)
    (hcur : ∀ m', m' ≠ m → y.curHead m' = f.sync.curHead m') (hnext : c'.next = c.next)
    (hlist : SameList f.sync c' k)
    (hothers : ∀ k', k' ≠ k → c'.cvHead k' = c.cvHead k' ∧ c'.cvTail k' = c.cvTail k') :
    Follows {
      sync := y
      lock := Function.update f.lock k false
      pos := Function.update f.pos (.notifier m) none } c' := by
  refine h.leave hg hpos hin hgraft hlists hkind (fun i _ => by rw [hhold]) ?_ hlist hothers
    (fun i _ _ _ => by rw [hnext]) ?_
  · intro m' hm'
    refine hcur m' ?_
    rintro rfl
    exact hm' rfl
  · intro i hi hno
    rw [hnext]
    refine h.next i (hhold ▸ hi) ?_
    intro z k₀ pc₀ hz hties' ht
    by_cases hzx : z = .notifier m
    · subst hzx
      rw [hpos] at hz
      cases hz
      rw [hties] at hties'
      cases hties'
    · exact hno z k₀ pc₀ hzx hz hties' ht

/-- The section of `notify_one` is the step of `Sync`. -/
theorem unlock_notifyOne {m : ν} {p : Option ι} (h : Follows f c) (hg : Good c)
    (hpos : f.pos (.notifier m) = some (k, .taken p)) :
    Follows {
      sync := p.elim f.sync fun a => f.sync.setLoc a .load
      lock := Function.update f.lock k false
      pos := Function.update f.pos (.notifier m) none } (Sync.notifyOne c k) := by
  have hview := h.view _ k _ hpos
  cases p with
  | none =>
    obtain ⟨hlist, hhead⟩ := hview
    have hc' : Sync.notifyOne c k = c := by simp only [Sync.notifyOne, hhead]
    rw [hc']
    exact h.leave_notifier hg hpos rfl rfl h.graft ⟨rfl, rfl, rfl⟩ rfl rfl (fun _ _ => rfl) rfl
      hlist fun _ _ => ⟨rfl, rfl⟩
  | some a =>
    obtain ⟨hhead, hnext, htail⟩ := hview
    have hc' : Sync.notifyOne c k = Spin.graft (f.sync.setLoc a .load) c.next
        (Function.update c.cvHead k (c.next a))
        (if c.next a = none then Function.update c.cvTail k none else c.cvTail) := by
      simp only [Sync.notifyOne, hhead]
      rw [h.graft]
      rfl
    rw [hc']
    refine h.leave_notifier hg hpos rfl rfl rfl ⟨rfl, rfl, rfl⟩ rfl rfl (fun _ _ => rfl) rfl ?_ ?_
    · constructor
      · rw [hnext, graft_cvHead, Function.update_self]
      · rw [htail, graft_cvTail]
        split_ifs
        · rw [Function.update_self]
        · rfl
    · intro k' hk'
      refine ⟨Function.update_of_ne hk' .., ?_⟩
      show (if c.next a = none then Function.update c.cvTail k none else c.cvTail) k' = _
      split_ifs
      · exact Function.update_of_ne hk' ..
      · rfl

/-- The section of `notify_all` is the step of `Sync`. -/
theorem unlock_notifyAll {m : ν} {p : Option ι} (h : Follows f c) (hg : Good c)
    (hpos : f.pos (.notifier m) = some (k, .emptied p)) :
    Sync.step c (.notifyAll m k) = some (Sync.notifyAll c m k) ∧ Follows {
      sync := { f.sync with
        curHead := Function.update f.sync.curHead m p
        loc := fun i => if f.sync.loc i = .parked k then .captured else f.sync.loc i }
      lock := Function.update f.lock k false
      pos := Function.update f.pos (.notifier m) none } (Sync.notifyAll c m k) := by
  have hcur : c.curHead m = none := by
    rw [h.graft]
    exact h.notifier m k _ hpos
  obtain ⟨hhead, hhead', htail'⟩ := h.view _ k _ hpos
  refine ⟨if_pos hcur, ?_⟩
  have hc' : Sync.notifyAll c m k = Spin.graft { f.sync with
      curHead := Function.update f.sync.curHead m p
      loc := fun i => if f.sync.loc i = .parked k then .captured else f.sync.loc i } c.next
        (Function.update c.cvHead k none) (Function.update c.cvTail k none) := by
    simp only [Sync.notifyAll, hhead]
    rw [h.graft]
    rfl
  rw [hc']
  refine h.leave_notifier hg hpos rfl rfl rfl ⟨rfl, rfl, rfl⟩ rfl rfl ?_ rfl ?_ ?_
  · exact fun m' hm' => Function.update_of_ne hm' ..
  · constructor
    · rw [hhead', graft_cvHead, Function.update_self]
    · rw [htail', graft_cvTail, Function.update_self]
  · exact fun k' hk' => ⟨Function.update_of_ne hk' .., Function.update_of_ne hk' ..⟩

end Follows

end SheepCoro.Spin
