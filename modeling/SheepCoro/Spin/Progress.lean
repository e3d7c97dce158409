import SheepCoro.Spin.Atomic

/-!
# The sections end

Inside of the spinlock a caller waits for nobody.  No pointer that it follows
is null, and after `Pc.rank` accesses of its own it is out, whatever the others
do in between (`section_ends`).  Outside it waits for the one inside only, so
that every call can be brought to its end (`call_finishes`).
-/

namespace SheepCoro.Spin

open Lib

open Sync (Good)

variable {ι κ ν : Type} [DecidableEq ι] [DecidableEq κ] [DecidableEq ν]
  {y y' c : Sync.State ι κ ν} {f₀ f f' u : State ι κ ν} {a : Label ι κ ν}
  {as bs : List (Label ι κ ν)} {x z : Caller ι ν} {k : κ} {pc pc' : Pc ι}

/-- The function that a position is in. -/
def Pc.op : Pc ι → Op
  | .exchange op | .load op => op
  | .readTail | .storeTail | .storeHead | .loadTail | .storeNext _ | .moveTail | .linked =>
    .registerCv
  | .readHead | .loadHead _ | .readNext .. | .storeNextHead .. | .testHead _ | .clearTail _
  | .taken _ => .notifyOne
  | .takeHead | .dropTail _ | .dropHead _ | .emptied _ => .notifyAll

/-- The functions that a caller runs. -/
def Caller.runs : Caller ι ν → Op → Bool
  | .awaiter _, op => op = .registerCv
  | .notifier _, op => op ≠ .registerCv

/-- How many accesses are left at most when nobody is in the way. -/
def Pc.rank : Pc ι → Nat
  | .load _ => 9
  | .exchange _ => 8
  | .readHead => 7
  | .loadHead _ => 6
  | .readTail | .readNext .. => 5
  | .loadTail | .storeNextHead .. | .takeHead => 4
  | .storeTail | .storeNext _ | .testHead _ | .dropTail _ => 3
  | .storeHead | .moveTail | .clearTail _ | .dropHead _ => 2
  | .linked | .taken _ | .emptied _ => 1

omit [DecidableEq ν] in
theorem access_next (hs : access y k x pc = some (y', pc')) :
    pc'.rank < pc.rank ∧ pc'.op = pc.op := by
  cases x with
  | awaiter i =>
    cases pc with
    | readTail =>
      cases hs
      split_ifs <;> exact ⟨by simp [Pc.rank], rfl⟩
    | loadTail =>
      obtain ⟨t, _, ⟨⟩⟩ := Option.map_eq_some_iff.mp hs
      exact ⟨by simp [Pc.rank], rfl⟩
    | storeTail | storeHead | storeNext | moveTail =>
      cases hs
      exact ⟨by simp [Pc.rank], rfl⟩
    | _ => cases hs
  | notifier m =>
    cases pc with
    | readHead =>
      cases hs
      cases y.cvHead k <;> exact ⟨by simp [Pc.rank], rfl⟩
    | loadHead cur =>
      obtain ⟨t, _, ⟨⟩⟩ := Option.map_eq_some_iff.mp hs
      exact ⟨by simp [Pc.rank], rfl⟩
    | testHead cur =>
      cases hs
      split_ifs <;> exact ⟨by simp [Pc.rank], rfl⟩
    | readNext | storeNextHead | clearTail | takeHead | dropTail | dropHead =>
      cases hs
      exact ⟨by simp [Pc.rank], rfl⟩
    | _ => cases hs

/-- No pointer that a section follows is null. -/
theorem section_enabled {self : Option ι} (hv : View y c k self pc) (hin : pc.inside = true)
    (hruns : x.runs pc.op = true) :
    (∃ y', unlock y k x pc = some y') ∨ ∃ r, access y k x pc = some r := by
  cases x with
  | awaiter i =>
    cases pc with
    | exchange | load => cases hin
    | loadTail =>
      obtain ⟨hlist, hsome⟩ := hv
      obtain ⟨t, ht⟩ := Option.ne_none_iff_exists'.mp hsome
      right
      refine ⟨(y, .storeNext t), ?_⟩
      show (y.cvTail k).map _ = _
      rw [hlist.tail, ht]
      rfl
    | linked => exact .inl ⟨_, rfl⟩
    | readTail | storeTail | storeHead | storeNext | moveTail => exact .inr ⟨_, rfl⟩
    | _ => cases hruns
  | notifier m =>
    cases pc with
    | exchange | load => cases hin
    | loadHead cur =>
      obtain ⟨hlist, hsome⟩ := hv
      right
      refine ⟨(y, .readNext cur cur), ?_⟩
      show (y.cvHead k).map _ = _
      rw [hlist.head, hsome]
      rfl
    | taken | emptied => exact .inl ⟨_, rfl⟩
    | readHead | readNext | storeNextHead | testHead | clearTail | takeHead | dropTail
    | dropHead => exact .inr ⟨_, rfl⟩
    | _ => cases hruns

omit [DecidableEq ι] in
theorem first_op (op : Op) : (op.first : Pc ι).op = op := by
  cases op <;> rfl

theorem act_of_pos (hpos : f.pos x = some (k, pc)) (hs : step f (.act x) = some f') :
    ActCase f x k pc f' := by
  cases step_cases hs with
  | act hpos' hact =>
    rw [hpos] at hpos'
    cases hpos'
    exact hact

/-- A caller stays in its function. -/
theorem act_op (hpos : f.pos x = some (k, pc)) (hs : ActCase f x k pc f') {p : κ × Pc ι}
    (hp : f'.pos x = some p) : p.1 = k ∧ p.2.op = pc.op := by
  have hgoto : ∀ {pc'}, Function.update f.pos x (some (k, pc')) x = some p → pc'.op = pc.op →
      p.1 = k ∧ p.2.op = pc.op := by
    intro pc' hx hop
    rw [Function.update_self] at hx
    cases hx
    exact ⟨rfl, hop⟩
  cases hs with
  | spin =>
    rw [hpos] at hp
    cases hp
    exact ⟨rfl, rfl⟩
  | busy | retry => exact hgoto hp rfl
  | enter => exact hgoto hp (first_op _)
  | access _ haccess => exact hgoto hp (access_next haccess).2
  | unlock =>
    have hnone : Function.update f.pos x none x = some p := hp
    rw [Function.update_self] at hnone
    cases hnone

/-- An access behind the spinlock is one less, or the last one. -/
theorem inside_step (hpos : f.pos x = some (k, pc)) (hin : pc.inside = true)
    (hs : step f (.act x) = some f') : f'.pos x = none ∧ f'.lock k = false ∨
      ∃ pc', f'.pos x = some (k, pc') ∧ pc'.inside = true ∧ pc'.rank < pc.rank := by
  cases act_of_pos hpos hs with
  | busy | enter | spin | retry => cases hin
  | @access _ pc' y _ haccess =>
    right
    exact ⟨pc', Function.update_self .., (access_keeps haccess).inside, (access_next haccess).1⟩
  | unlock => exact .inl ⟨Function.update_self .., Function.update_self ..⟩

theorem act_others (hs : ActCase f x k pc f') (hz : z ≠ x) : f'.pos z = f.pos z := by
  cases hs with
  | spin => rfl
  | busy | enter | retry | access | unlock => exact Function.update_of_ne hz ..

/-- The steps of the others leave a caller where it is. -/
theorem pos_step (hs : step f a = some f') (ha : a ≠ .act x) {p : κ × Pc ι}
    (hpos : f.pos x = some p) : f'.pos x = some p := by
  cases step_cases hs with
  | sync => exact hpos
  | registerCv _ _ hnone | notifyOne hnone | notifyAll hnone =>
    refine (Function.update_of_ne ?_ ..).trans hpos
    rintro rfl
    rw [hpos] at hnone
    cases hnone
  | @act z k pc _ _ hact =>
    refine (act_others hact ?_).trans hpos
    rintro rfl
    exact ha rfl

omit [DecidableEq ι] in
theorem rank_pos : 0 < pc.rank := by
  cases pc <;> simp [Pc.rank]

/-! ## What is reachable -/

/-- A state in the middle of sections, with every caller in a function of its
own. -/
structure Kept (f : State ι κ ν) : Prop where
  follows : ∃ c, (Sync.machine ι κ ν).Reachable c ∧ Follows f c
  runs : ∀ x k pc, f.pos x = some (k, pc) → x.runs pc.op = true

theorem runs_step (h : ∀ x k pc, f.pos x = some (k, pc) → x.runs pc.op = true)
    (hs : step f a = some f') (x : Caller ι ν) (k : κ) (pc : Pc ι)
    (hpos : f'.pos x = some (k, pc)) : x.runs pc.op = true := by
  have hgoto : ∀ {z k' op}, z.runs op = true →
      Function.update f.pos z (some (k', .exchange op)) x = some (k, pc) →
      x.runs pc.op = true := by
    intro z k' op hz hx
    rcases update_eq_iff.mp hx with ⟨rfl, heq⟩ | ⟨_, hx⟩
    · cases heq
      exact hz
    · exact h x k pc hx
  by_cases ha : a = .act x
  · subst ha
    cases step_cases hs with
    | @act _ k' pc' _ hx hact =>
      rw [(act_op hx hact hpos).2]
      exact h x k' pc' hx
  · cases step_cases hs with
    | sync => exact h x k pc hpos
    | registerCv | notifyOne | notifyAll => exact hgoto rfl hpos
    | @act z _ _ _ _ hact =>
      have hxz : x ≠ z := by
        rintro rfl
        exact ha rfl
      apply h x k pc
      rwa [act_others hact hxz] at hpos

theorem kept_of_reachable (hr : (machine ι κ ν).Reachable f) : Kept f := by
  refine hr.invariant (I := Kept) ?_ ?_
  · intro f h₀
    refine ⟨⟨f.sync, .init h₀.sync, h₀.follows⟩, ?_⟩
    intro x k pc hpos
    rw [h₀.pos x] at hpos
    cases hpos
  · intro f a f' _ h hs
    obtain ⟨c, hc, hfollows⟩ := h.follows
    obtain ⟨c', hrun, hfollows'⟩ := follows_step (Sync.good_of_reachable hc) hfollows hs
    exact ⟨⟨c', hc.run hrun, hfollows'⟩, runs_step h.runs hs⟩

/-- A caller can always take its next access. -/
theorem act_enabled (hr : (machine ι κ ν).Reachable f) (hpos : f.pos x = some (k, pc)) :
    ∃ f', step f (.act x) = some f' := by
  have hstep : step f (.act x) = act f x k pc := by
    simp only [step, hpos, Option.bind_some]
  rw [hstep]
  have hkept := kept_of_reachable hr
  cases hin : pc.inside with
  | true =>
    obtain ⟨c, -, hfollows⟩ := hkept.follows
    rw [act_inside hin]
    rcases section_enabled (hfollows.view x k pc hpos) hin (hkept.runs x k pc hpos) with
      ⟨y, hy⟩ | ⟨r, hr⟩
    · rw [hy]
      exact ⟨_, rfl⟩
    · cases unlock f.sync k x pc with
      | some y => exact ⟨_, rfl⟩
      | none =>
        rw [hr]
        exact ⟨_, rfl⟩
  | false =>
    cases pc with
    | exchange op | load op =>
      unfold act
      split_ifs <;> exact ⟨_, rfl⟩
    | _ => cases hin

/-! ## The way out -/

/-- The step is an access of the caller. -/
def Label.mine (x : Caller ι ν) : Label ι κ ν → Bool
  | .act z => z = x
  | _ => false

omit [DecidableEq κ] in
theorem Label.mine_iff : a.mine x = true ↔ a = .act x := by
  cases a <;> simp [Label.mine]

theorem leaves (hpos : f.pos x = some (k, pc)) (hin : pc.inside = true)
    (hlater : (machine ι κ ν).run f bs = some f') (hcount : pc.rank ≤ bs.countP (Label.mine x)) :
    ∃ cs u, cs <+: bs ∧ (machine ι κ ν).run f cs = some u ∧ u.pos x = none ∧
      u.lock k = false := by
  induction bs generalizing f pc with
  | nil =>
    have hrank : 0 < pc.rank := rank_pos
    rw [List.countP_nil] at hcount
    omega
  | cons a bs ih =>
    obtain ⟨v, hv, hrest⟩ := Machine.run_cons.mp hlater
    have hlift : (∃ cs u, cs <+: bs ∧ (machine ι κ ν).run v cs = some u ∧ u.pos x = none ∧
        u.lock k = false) → ∃ cs u, cs <+: a :: bs ∧ (machine ι κ ν).run f cs = some u ∧
        u.pos x = none ∧ u.lock k = false := by
      rintro ⟨cs, u, hcs, hu, hout⟩
      exact ⟨a :: cs, u, List.cons_prefix_cons.mpr ⟨rfl, hcs⟩,
        Machine.run_cons.mpr ⟨v, hv, hu⟩, hout⟩
    by_cases ha : a = .act x
    · subst ha
      rw [List.countP_cons_of_pos (Label.mine_iff.mpr rfl)] at hcount
      rcases inside_step hpos hin hv with hout | ⟨pc', hpos', hin', hrank⟩
      · exact hlift ⟨[], v, List.nil_prefix, rfl, hout⟩
      · exact hlift (ih hpos' hin' hrest (by omega))
    · rw [List.countP_cons_of_neg fun hmine => ha (Label.mine_iff.mp hmine)] at hcount
      exact hlift (ih (pos_step hv ha hpos) hin hrest hcount)

/-- An access when nobody is in the way. -/
theorem clear_step (hpos : f.pos x = some (k, pc)) (hclear : pc.inside = true ∨ f.lock k = false)
    (hs : step f (.act x) = some f') : f'.pos x = none ∧ f'.lock k = false ∨
      ∃ pc', f'.pos x = some (k, pc') ∧ pc'.rank < pc.rank ∧
        (pc'.inside = true ∨ f'.lock k = false) := by
  rcases hclear with hin | hfree
  · rcases inside_step hpos hin hs with hout | ⟨pc', hpos', hin', hrank⟩
    · exact .inl hout
    · exact .inr ⟨pc', hpos', hrank, .inl hin'⟩
  · have hbusy : f.lock k ≠ true := by
      rw [hfree]
      decide
    cases act_of_pos hpos hs with
    | busy hlock | spin hlock => exact absurd hlock hbusy
    | @enter op _ =>
      right
      refine ⟨op.first, Function.update_self .., ?_, .inl ?_⟩
      · cases op <;> simp [Op.first, Pc.rank]
      · cases op <;> rfl
    | @retry op _ =>
      right
      exact ⟨.exchange op, Function.update_self .., by simp [Pc.rank], .inr hfree⟩
    | @access _ pc' y hin haccess =>
      right
      exact ⟨pc', Function.update_self .., (access_next haccess).1,
        .inl (access_keeps haccess).inside⟩
    | unlock => exact .inl ⟨Function.update_self .., Function.update_self ..⟩

/-- With the spinlock free, or its own, a caller gets to its end alone. -/
theorem alone_run (hr : (machine ι κ ν).Reachable f) (hpos : f.pos x = some (k, pc))
    (hclear : pc.inside = true ∨ f.lock k = false) :
    ∃ n u, n ≤ pc.rank ∧ (machine ι κ ν).run f (List.replicate n (.act x)) = some u ∧
      u.pos x = none ∧ u.lock k = false ∧ ∀ z p, z ≠ x → f.pos z = some p → u.pos z = some p := by
  induction hrank : pc.rank using Nat.strongRecOn generalizing f pc with
  | ind r ih =>
    obtain ⟨v, hv⟩ := act_enabled hr hpos
    have hothers : ∀ z p, z ≠ x → f.pos z = some p → v.pos z = some p := by
      intro z p hz hp
      refine pos_step hv ?_ hp
      rintro ⟨⟩
      exact hz rfl
    have hv' : (machine ι κ ν).step f (.act x) = some v := hv
    have hr' : (machine ι κ ν).Reachable v := hr.next hv'
    rcases clear_step hpos hclear hv with ⟨hout, hfree⟩ | ⟨pc', hpos', hless, hclear'⟩
    · refine ⟨1, v, ?_, Machine.run_cons.mpr ⟨v, hv, rfl⟩, hout, hfree, hothers⟩
      rw [← hrank]
      exact rank_pos
    · obtain ⟨n, u, hn, hrun, hout, hfree, hrest⟩ :=
        ih pc'.rank (hrank ▸ hless) hr' hpos' hclear' rfl
      refine ⟨n + 1, u, by omega, Machine.run_cons.mpr ⟨v, hv, hrun⟩, hout, hfree, ?_⟩
      intro z p hz hp
      exact hrest z p hz (hothers z p hz hp)

omit [DecidableEq ι] in
theorem rank_le : pc.rank ≤ 9 := by
  cases pc <;> simp [Pc.rank]

omit [DecidableEq ι] in
theorem rank_inside (hin : pc.inside = true) : pc.rank ≤ 7 := by
  cases pc with
  | exchange | load => cases hin
  | _ => simp [Pc.rank]

/-- Somebody is inside of a spinlock that is not free. -/
theorem exists_inside (hr : (machine ι κ ν).Reachable f) (hlock : f.lock k = true) :
    ∃ x pc, f.pos x = some (k, pc) ∧ pc.inside = true := by
  obtain ⟨c, -, h⟩ := (kept_of_reachable hr).follows
  obtain ⟨x, hx⟩ := (h.guarded.held k).mp hlock
  refine ⟨x, ?_⟩
  cases hpos : f.pos x with
  | none =>
    rw [hpos] at hx
    cases hx
  | some p =>
    rw [hpos] at hx
    obtain ⟨hin, ⟨⟩⟩ := Option.ite_none_right_eq_some.mp hx
    exact ⟨p.2, rfl, hin⟩

/-- A caller gets to its end behind the one inside of the spinlock. -/
theorem exists_way (hr : (machine ι κ ν).Reachable f) (hpos : f.pos x = some (k, pc)) :
    ∃ z m n u, (z ≠ x ∨ m = 0) ∧ m + n ≤ 16 ∧
      (machine ι κ ν).run f (List.replicate m (.act z) ++ List.replicate n (.act x)) = some u ∧
      u.pos x = none ∧ u.lock k = false := by
  have hrank : pc.rank ≤ 9 := rank_le
  by_cases hclear : pc.inside = true ∨ f.lock k = false
  · obtain ⟨n, u, hn, hu, hout, hfree, -⟩ := alone_run hr hpos hclear
    exact ⟨x, 0, n, u, .inr rfl, by omega, hu, hout, hfree⟩
  · obtain ⟨houtside, hlock⟩ := not_or.mp hclear
    obtain ⟨z, pcz, hz, hin⟩ := exists_inside hr (Bool.not_eq_false _ ▸ hlock)
    have hzx : z ≠ x := by
      rintro rfl
      rw [hpos] at hz
      cases hz
      exact houtside hin
    obtain ⟨m, v, hm, hv, -, hvfree, hothers⟩ := alone_run hr hz (.inl hin)
    obtain ⟨n, u, hn, hu, hout, hfree, -⟩ :=
      alone_run (hr.run hv) (hothers x _ hzx.symm hpos) (.inr hvfree)
    have hinside := rank_inside hin
    exact ⟨z, m, n, u, .inl hzx, by omega, Machine.run_append.mpr ⟨v, hv, hu⟩, hout, hfree⟩

/-- A caller that has the spinlock can take its next access, and however the
steps of the others fall in between, it is out of the section after as many
accesses of its own as are left. -/
theorem section_ends (f₀ f : State ι κ ν) (as : List (Label ι κ ν)) (x : Caller ι ν) (k : κ)
    (pc : Pc ι) (h₀ : Init f₀) (hrun : (machine ι κ ν).run f₀ as = some f)
    (hpos : f.pos x = some (k, pc)) (hin : pc.inside = true) :
    (∃ f', step f (.act x) = some f') ∧
      ∀ bs f', (machine ι κ ν).run f bs = some f' → pc.rank ≤ bs.countP (Label.mine x) →
        ∃ cs u, cs <+: bs ∧ (machine ι κ ν).run f cs = some u ∧ u.pos x = none ∧
          u.lock k = false := by
  have hr : (machine ι κ ν).Reachable f := Machine.Reachable.run (.init h₀) hrun
  refine ⟨act_enabled hr hpos, ?_⟩
  intro bs f' hlater hcount
  exact leaves hpos hin hlater hcount

/-- The caller of `notify_one` takes its accesses between those of the second
waiter. -/
theorem section_ends_half_linked :
    ∃ f, (machine Nat Unit Unit).run spinState halfLinked = some f ∧
      f.pos (.awaiter 1) = some ((), .moveTail) ∧
      ∃ cs u, cs <+: [.act (.notifier ()), .act (.awaiter 1), .act (.notifier ()),
          .act (.awaiter 1)] ∧
        (machine Nat Unit Unit).run f cs = some u ∧ u.pos (.awaiter 1) = none ∧
        u.lock () = false := by
  have hrun : ((machine Nat Unit Unit).run spinState halfLinked).map (fun f =>
      decide (f.pos (.awaiter 1) = some ((), .moveTail) ∧
        ((machine Nat Unit Unit).run f [.act (.notifier ()), .act (.awaiter 1),
          .act (.notifier ()), .act (.awaiter 1)]).isSome)) = some true := by decide
  obtain ⟨f, hf, htest⟩ := Option.map_eq_some_iff.mp hrun
  obtain ⟨hpos, hlater⟩ := of_decide_eq_true htest
  obtain ⟨f', hf'⟩ := Option.isSome_iff_exists.mp hlater
  obtain ⟨-, hends⟩ :=
    section_ends spinState f halfLinked (.awaiter 1) () .moveTail init_spinState hf hpos rfl
  exact ⟨f, hf, hpos, hends _ f' hf' (by decide)⟩

/-- The section of a call of `register_cv`, `notify_one` or `notify_all` can be
over after sixteen accesses, first those of the caller inside of the spinlock
and then its own. -/
theorem section_reached (f₀ f : State ι κ ν) (as : List (Label ι κ ν)) (x : Caller ι ν) (k : κ)
    (pc : Pc ι) (h₀ : Init f₀) (hrun : (machine ι κ ν).run f₀ as = some f)
    (hpos : f.pos x = some (k, pc)) :
    ∃ z m n u, m + n ≤ 16 ∧
      (machine ι κ ν).run f (List.replicate m (.act z) ++ List.replicate n (.act x)) = some u ∧
      u.pos x = none ∧ u.lock k = false := by
  have hr : (machine ι κ ν).Reachable f := Machine.Reachable.run (.init h₀) hrun
  obtain ⟨z, m, n, u, -, hmn, hu, hout, hfree⟩ := exists_way hr hpos
  exact ⟨z, m, n, u, hmn, hu, hout, hfree⟩

/-- The caller of `notify_one` that spins while the second waiter is inside. -/
theorem section_reached_half_linked :
    ∃ f, (machine Nat Unit Unit).run spinState halfLinked = some f ∧
      f.pos (.notifier ()) = some ((), .load .notifyOne) ∧ f.lock () = true ∧
      ∃ z m n u, m + n ≤ 16 ∧ (machine Nat Unit Unit).run f
          (List.replicate m (.act z) ++ List.replicate n (.act (.notifier ()))) = some u ∧
        u.pos (.notifier ()) = none ∧ u.lock () = false := by
  have hrun : ((machine Nat Unit Unit).run spinState halfLinked).map (fun f =>
      decide (f.pos (.notifier ()) = some ((), .load .notifyOne) ∧ f.lock () = true)) =
      some true := by decide
  obtain ⟨f, hf, htest⟩ := Option.map_eq_some_iff.mp hrun
  obtain ⟨hpos, hlock⟩ := of_decide_eq_true htest
  exact ⟨f, hf, hpos, hlock,
    section_reached spinState f halfLinked (.notifier ()) () _ init_spinState hf hpos⟩

end SheepCoro.Spin
