import SheepCoro.Context.Wakeup
import SheepCoro.Io.Alive
import Mathlib.Data.List.Range

/-!
# Every result is delivered once

The kernel ends an operation with a result, and some time later `await_resume`
returns a value.  Here the two are counted against each other over a whole
run: every operation that was constructed is with the kernel, or not there
yet, or was completed once, and the values that were returned, together with
those that are on their way to their coroutine, are those of the completions.

On their way are the completions of a batch that was not handled so far, and
the results in the awaiters whose coroutine is in the task queue or about to
read.  A handle that `submit_task` discards at the limit of the recursion takes
its result with it.
-/

namespace SheepCoro.Io

open Lib

open scoped List

variable {cfg : Context.Config} {s s' : State} {done got lost : List (Nat × BitVec 32)}

/-- The value of the `op`-th awaiter if the kernel ends its operation with
`res`. -/
def valueOf (made : List Request) (d : Nat × BitVec 32) : Nat × BitVec 32 :=
  (d.1, match made[d.1]? with
    | some req => req.value d.2
    | none => d.2)

theorem map_fst_valueOf (made : List Request) (done : List (Nat × BitVec 32)) :
    (done.map (valueOf made)).map Prod.fst = done.map Prod.fst := by
  rw [List.map_map]
  rfl

/-- The result that a coroutine is going to read. -/
def unread (mem : Nat → Option Awaiter) (susp : Nat → Option Nat) (h : Nat) :
    Option (Nat × BitVec 32) := do
  let addr ← susp h
  let aw ← mem addr
  let v ← aw.info.result
  some (aw.op, v)

/-- The values that are on their way. -/
def State.pending (s : State) : List (Nat × BitVec 32) :=
  s.unhandled.map (fun c => valueOf s.made (c.op, c.res)) ++
    s.tokens.filterMap (unread s.mem s.susp)

/-- The operation that the kernel ends in a step, with its result. -/
def completed (s : State) : Label → List (Nat × BitVec 32)
  | .complete i res => (s.inflight[i]?.map fun e => (e.op, res)).toList
  | _ => []

/-- The value that `await_resume` returns in a step, with its operation. -/
def obtained (s : State) : Label → List (Nat × BitVec 32)
  | .resume => (s.cur.head?.join.bind (unread s.mem s.susp)).toList
  | _ => []

/-- The value that is lost when the handle is discarded. -/
def discarded (cfg : Context.Config) (s : State) : Label → List (Nat × BitVec 32)
  | .callback =>
    match s.next with
    | some (cqe, aw, _) =>
      if s.discards cfg then [(aw.op, aw.info.cb.stores aw.info.data cqe.res)] else []
    | none => []
  | _ => []

/-- What the kernel has done (`done`) and what the coroutines have got (`got`)
or will not get (`lost`). -/
structure Delivered (done got lost : List (Nat × BitVec 32)) (s : State) : Prop where
  ops : done.map Prod.fst ++ (s.sq ++ s.inflight).map Entry.op ~ List.range s.made.length
  values : done.map (valueOf s.made) ~ got ++ lost ++ s.pending

theorem delivered_newState : Delivered [] [] [] newState where
  ops := List.Perm.refl _
  values := List.Perm.refl _

/-- Nothing is completed, and no value arrives. -/
theorem Delivered.stay (h : Delivered done got lost s) (hmade : s'.made = s.made)
    (hring : s'.sq ++ s'.inflight ~ s.sq ++ s.inflight) (hpending : s'.pending ~ s.pending) :
    Delivered done got lost s' where
  ops := by
    rw [hmade]
    exact ((hring.map Entry.op).append_left _).trans h.ops
  values := by
    rw [hmade]
    exact h.values.trans (hpending.symm.append_left _)

/-! ## Who is going to read -/

section Unread

variable {mem mem' : Nat → Option Awaiter} {susp susp' : Nat → Option Nat} {h addr : Nat}
  {aw : Awaiter}

theorem unread_of_none (hnone : susp h = none) : unread mem susp h = none := by
  unfold unread
  rw [hnone]
  rfl

theorem unread_eq {v : BitVec 32} (hsusp : susp h = some addr) (haw : mem addr = some aw)
    (hv : aw.info.result = some v) : unread mem susp h = some (aw.op, v) := by
  simp only [unread, hsusp, haw, hv, Option.bind_eq_bind, Option.bind_some]

/-- The other coroutines are going to read what they were. -/
theorem unread_congr (hsusp : susp' h = susp h) (hmem : ∀ addr, susp h = some addr →
    (mem' addr).map (fun aw => (aw.op, aw.info.result)) =
      (mem addr).map fun aw => (aw.op, aw.info.result)) :
    unread mem' susp' h = unread mem susp h := by
  unfold unread
  rw [hsusp]
  cases haddr : susp h with
  | none => rfl
  | some addr =>
    have hsame := hmem addr haddr
    simp only [Option.bind_eq_bind, Option.bind_some]
    cases hold : mem addr with
    | none =>
      rw [hold, Option.map_none, Option.map_eq_none_iff] at hsame
      rw [hsame]
    | some aw =>
      rw [hold, Option.map_some, Option.map_eq_some_iff] at hsame
      obtain ⟨aw', haw', heq⟩ := hsame
      obtain ⟨hop, hres⟩ := Prod.mk.inj heq
      rw [haw', Option.bind_some, Option.bind_some, hop, hres]

end Unread

/-! ## The steps -/

section Steps

variable {a : Label} {h h' addr : Nat} {rest : List (Option Nat)} {aw : Awaiter}

theorem filterMap_perm_of_none {α β : Type} {f : α → Option β} {l l' : List α} {x : α}
    (hperm : l ~ x :: l') (hx : f x = none) : l.filterMap f ~ l'.filterMap f := by
  have hall := hperm.filterMap f
  rw [List.filterMap_cons_none hx] at hall
  exact hall

/-- A value that was on its way is got. -/
theorem perm_take {α : Type} (l₁ l₂ l₃ l₄ : List α) (x : α) :
    l₁ ++ l₂ ++ (l₃ ++ x :: l₄) ~ l₁ ++ [x] ++ l₂ ++ (l₃ ++ l₄) :=
  calc l₁ ++ l₂ ++ (l₃ ++ x :: l₄)
      ~ l₁ ++ l₂ ++ x :: (l₃ ++ l₄) := List.perm_middle.append_left _
    _ ~ x :: (l₁ ++ l₂ ++ (l₃ ++ l₄)) := List.perm_middle
    _ = x :: (l₁ ++ (l₂ ++ (l₃ ++ l₄))) := by rw [List.append_assoc]
    _ ~ l₁ ++ x :: (l₂ ++ (l₃ ++ l₄)) := List.perm_middle.symm
    _ = l₁ ++ [x] ++ l₂ ++ (l₃ ++ l₄) := by
      rw [List.append_assoc, List.append_assoc, List.singleton_append]

/-- Handles and entries go from one place to the next. -/
theorem Followed.pending {t : State} (h : Followed s t) (hmem : t.mem = s.mem)
    (hsusp : t.susp = s.susp) (hmade : t.made = s.made) : t.pending ~ s.pending := by
  unfold State.pending
  rw [h.unhandled, hmem, hsusp, hmade]
  apply List.Perm.append_left
  rcases h.tokens with hsame | ⟨x, hidle, hnew⟩
  · exact hsame.filterMap _
  · exact filterMap_perm_of_none hnew (unread_of_none hidle.2.2)

theorem Delivered.follow {a : Context.Label} {ctx : Context.State}
    (h : Delivered done got lost s) (hm : Matched s) (hallows : s.allows a = true)
    (hproper : Proper s (.ctx a)) (hs : Context.step cfg s.ctx a = some ctx) :
    Delivered done got lost { s.follow cfg a with ctx } := by
  have hfollow := hm.follow hallows hproper hs
  obtain ⟨hmem, hsusp, _, hmade⟩ := follow_frame cfg s a
  exact h.stay hmade hfollow.ring (hfollow.pending hmem hsusp hmade)

/-- The worker leaves the coroutine that runs. -/
theorem Delivered.switch {o : Option Nat} (h : Delivered done got lost s)
    (hcur : s.cur = some h' :: rest) (hrun : s.susp h' = none) (ho : ∀ x ∈ o, s.idle x) :
    Delivered done got lost { s with cur := o :: rest } := by
  apply h.stay (by rfl) (by rfl)
  unfold State.pending
  apply List.Perm.append_left
  have hold : s.tokens.filterMap (unread s.mem s.susp) ~
      (s.ctx.taskQueue ++ rest.reduceOption).filterMap (unread s.mem s.susp) :=
    filterMap_perm_of_none (tokens_cons hcur) (unread_of_none hrun)
  apply List.Perm.trans _ hold.symm
  cases o with
  | none => exact List.Perm.refl _
  | some x =>
    have hnew : State.tokens { s with cur := some x :: rest } ~
        x :: (s.ctx.taskQueue ++ rest.reduceOption) := tokens_cons rfl
    exact filterMap_perm_of_none hnew (unread_of_none (ho x rfl).2.2)

theorem Delivered.await (h : Delivered done got lost s) (hinv : Alive s)
    (hcur : s.cur = some h' :: rest) (hrun : s.susp h' = none) (haw : s.mem addr = some aw) :
    Delivered done got lost { s with
      mem := Function.update s.mem addr (some { aw with info.handle := some h' })
      susp := Function.update s.susp h' (some addr)
      cur := none :: rest
      loose := s.loose.erase addr } := by
  apply h.stay (by rfl) (by rfl)
  have htokens := tokens_cons hcur
  have hout := (List.nodup_cons.mp (htokens.nodup_iff.mp hinv.awaiters.once)).1
  unfold State.pending
  apply List.Perm.append_left
  apply List.Perm.trans _ (filterMap_perm_of_none htokens (unread_of_none hrun)).symm
  apply List.Perm.of_eq
  apply List.filterMap_congr
  intro x hx
  have hne : x ≠ h' := by
    rintro rfl
    exact hout hx
  apply unread_congr (Function.update_of_ne hne ..)
  intro y _
  by_cases hy : y = addr
  · subst hy
    show ((Function.update s.mem y _) y).map _ = _
    rw [Function.update_self, haw]
    rfl
  · show ((Function.update s.mem addr _) y).map _ = _
    rw [Function.update_of_ne hy]

theorem Delivered.resume {v : BitVec 32} (h : Delivered done got lost s) (hinv : Alive s)
    (hcur : s.cur = some h' :: rest) (hsusp : s.susp h' = some addr)
    (haw : s.mem addr = some aw) (hh : aw.info.handle = some h')
    (hv : aw.info.result = some v) :
    Delivered done (got ++ [(aw.op, v)]) lost { s with
      mem := Function.update s.mem addr none
      susp := Function.update s.susp h' none } := by
  have htokens := tokens_cons hcur
  have hout := (List.nodup_cons.mp (htokens.nodup_iff.mp hinv.awaiters.once)).1
  have hsame : ∀ x ∈ s.ctx.taskQueue ++ rest.reduceOption,
      unread (Function.update s.mem addr none) (Function.update s.susp h' none) x =
        unread s.mem s.susp x := by
    intro x hx
    have hne : x ≠ h' := by
      rintro rfl
      exact hout hx
    apply unread_congr (Function.update_of_ne hne ..)
    intro y hy
    have hother : y ≠ addr := by
      rintro rfl
      obtain ⟨aw', haw', hx'⟩ := (hinv.awaiters.suspended ..).mp hy
      rw [Option.some.inj (haw'.symm.trans haw), hh] at hx'
      exact hne (Option.some.inj hx').symm
    rw [Function.update_of_ne hother]
  have hread : s.tokens.filterMap (unread s.mem s.susp) ~
      (aw.op, v) :: (s.ctx.taskQueue ++ rest.reduceOption).filterMap (unread s.mem s.susp) := by
    have hall := htokens.filterMap (unread s.mem s.susp)
    rw [List.filterMap_cons_some (unread_eq hsusp haw hv)] at hall
    exact hall
  have hleft : s.tokens.filterMap
      (unread (Function.update s.mem addr none) (Function.update s.susp h' none)) ~
      (s.ctx.taskQueue ++ rest.reduceOption).filterMap (unread s.mem s.susp) := by
    rw [← List.filterMap_congr hsame]
    exact filterMap_perm_of_none htokens (unread_of_none (Function.update_self ..))
  refine ⟨h.ops, h.values.trans ?_⟩
  apply ((hread.append_left _).append_left _).trans
  apply (perm_take ..).trans
  exact (hleft.symm.append_left _).append_left _

theorem valueOf_append {made : List Request} {req : Request} {d : Nat × BitVec 32}
    (hlt : d.1 < made.length) : valueOf (made ++ [req]) d = valueOf made d := by
  unfold valueOf
  rw [List.getElem?_append_left hlt]

theorem Alive.op_lt (hinv : Alive s) {e : Entry} (he : e ∈ s.waiting) :
    e.op < s.made.length := by
  obtain ⟨aw, haw, hop, _⟩ := hinv.awaiters.alive e he
  obtain ⟨req, hreq, _⟩ := hinv.awaiters.request _ aw haw
  rw [← hop]
  exact (List.getElem?_eq_some_iff.mp hreq).1

theorem Delivered.construct {ctx : Context.State} (h : Delivered done got lost s)
    (hinv : Alive s) (hfree : s.mem addr = none) (req : Request)
    (hctx : Context.step cfg s.ctx (.act .prepareIo) = some ctx) :
    Delivered done got lost { s with
      ctx
      mem := Function.update s.mem addr (some ⟨req.info, s.made.length⟩)
      sq := s.sq ++ [⟨addr, s.made.length⟩]
      loose := addr :: s.loose
      made := s.made ++ [req] } := by
  obtain ⟨_, hact⟩ := Option.ite_none_right_eq_some.mp hctx
  obtain ⟨_, ⟨⟩⟩ := Option.ite_none_right_eq_some.mp hact
  constructor
  · show done.map Prod.fst ++
      ((s.sq ++ [Entry.mk addr s.made.length]) ++ s.inflight).map Entry.op ~
      List.range (s.made ++ [req]).length
    have hring : (s.sq ++ [Entry.mk addr s.made.length]) ++ s.inflight ~
        Entry.mk addr s.made.length :: (s.sq ++ s.inflight) := by
      rw [List.append_assoc]
      exact List.perm_middle
    rw [List.length_append, List.length_singleton, List.range_succ]
    calc done.map Prod.fst ++
          ((s.sq ++ [Entry.mk addr s.made.length]) ++ s.inflight).map Entry.op
        ~ done.map Prod.fst ++ (s.made.length :: (s.sq ++ s.inflight).map Entry.op) :=
          (hring.map Entry.op).append_left _
      _ ~ s.made.length :: (done.map Prod.fst ++ (s.sq ++ s.inflight).map Entry.op) :=
          List.perm_middle
      _ ~ s.made.length :: List.range s.made.length := h.ops.cons _
      _ ~ List.range s.made.length ++ [s.made.length] :=
          (List.perm_append_singleton ..).symm
  · have hdone : done.map (valueOf (s.made ++ [req])) = done.map (valueOf s.made) := by
      apply List.map_congr_left
      intro d hd
      apply valueOf_append
      apply List.mem_range.mp
      exact h.ops.mem_iff.mp (List.mem_append_left _ (List.mem_map_of_mem hd))
    have hcoming : s.unhandled.map (fun c => valueOf (s.made ++ [req]) (c.op, c.res)) =
        s.unhandled.map fun c => valueOf s.made (c.op, c.res) := by
      apply List.map_congr_left
      intro c hc
      apply valueOf_append
      exact hinv.op_lt (List.mem_append_right _ (List.mem_map_of_mem hc))
    have hread : s.tokens.filterMap
        (unread (Function.update s.mem addr (some ⟨req.info, s.made.length⟩)) s.susp) =
        s.tokens.filterMap (unread s.mem s.susp) := by
      apply List.filterMap_congr
      intro x _
      apply unread_congr rfl
      intro y hy
      have hne : y ≠ addr := by
        rintro rfl
        exact (hinv.awaiters.free hfree).2 x hy
      rw [Function.update_of_ne hne]
    show done.map (valueOf (s.made ++ [req])) ~ got ++ lost ++
      (s.unhandled.map (fun c => valueOf (s.made ++ [req]) (c.op, c.res)) ++ s.tokens.filterMap
        (unread (Function.update s.mem addr (some ⟨req.info, s.made.length⟩)) s.susp))
    rw [hdone, hcoming, hread]
    exact h.values

theorem Delivered.complete {i : Nat} {e : Entry} {ctx : Context.State}
    (h : Delivered done got lost s) (hm : Matched s) (hb : Context.Books s.ctx)
    (he : s.inflight[i]? = some e) (res : BitVec 32)
    (hctx : Context.step cfg s.ctx .complete = some ctx) :
    Delivered (done ++ [(e.op, res)]) got lost { s with
      ctx
      inflight := s.inflight.eraseIdx i
      cq := s.cq ++ [⟨e, res⟩] } := by
  obtain ⟨_, ⟨⟩⟩ := Option.ite_none_right_eq_some.mp hctx
  obtain ⟨hi, rfl⟩ := List.getElem?_eq_some_iff.mp he
  have hhandled : handledAt s.ctx.pc ≤ s.cq.length := hm.cq ▸ handledAt_le hb
  constructor
  · show (done ++ [_]).map Prod.fst ++ (s.sq ++ s.inflight.eraseIdx i).map Entry.op ~ _
    rw [List.map_append, List.append_assoc, List.map_singleton, List.singleton_append]
    apply List.Perm.trans _ h.ops
    apply List.Perm.append_left
    show (s.inflight[i] :: (s.sq ++ s.inflight.eraseIdx i)).map Entry.op ~ _
    apply List.Perm.map
    apply List.perm_middle.symm.trans
    exact (List.getElem_cons_eraseIdx_perm hi).append_left _
  · show (done ++ [_]).map _ ~ got ++ lost ++ (((s.cq ++ [_]).drop (handledAt s.ctx.pc)).map _ ++
      s.tokens.filterMap _)
    rw [List.drop_append_of_le_length hhandled, List.map_append, List.map_append,
      List.append_assoc (List.map _ _)]
    calc done.map (valueOf s.made) ++ [valueOf s.made (s.inflight[i].op, res)]
        ~ valueOf s.made (s.inflight[i].op, res) :: done.map (valueOf s.made) :=
          List.perm_append_singleton ..
      _ ~ valueOf s.made (s.inflight[i].op, res) :: (got ++ lost ++ s.pending) :=
          h.values.cons _
      _ ~ got ++ lost ++ (s.unhandled.map _ ++ valueOf s.made (s.inflight[i].op, res) ::
          s.tokens.filterMap (unread s.mem s.susp)) := by
          apply List.perm_middle.symm.trans
          exact List.perm_middle.symm.append_left _

/-- A callback passes the value on, or the handle is discarded. -/
theorem Delivered.callback {cqe : Cqe} (h : Delivered done got lost s) (hinv : Alive s)
    (hcalled : Called cfg s s' cqe h') (haw : s.mem cqe.addr = some aw)
    (hh : aw.info.handle = some h')
    (hmem : s'.mem =
      Function.update s.mem cqe.addr (some { aw with info := aw.info.call cqe.res })) :
    Delivered done got (lost ++ if s.discards cfg then
      [(aw.op, aw.info.cb.stores aw.info.data cqe.res)] else []) s' := by
  obtain ⟨hop, hsusp, hout⟩ := hinv.next hcalled haw hh
  -- The value is that of the request.
  have hvalue : valueOf s.made (cqe.op, cqe.res) =
      (aw.op, aw.info.cb.stores aw.info.data cqe.res) := by
    obtain ⟨req, hreq, hcb, hdata⟩ := hinv.awaiters.request _ aw haw
    unfold valueOf
    rw [← hop, hreq, hcb, hdata, stores_info]
  have hread : s.tokens.filterMap (unread s'.mem s'.susp) =
      s.tokens.filterMap (unread s.mem s.susp) := by
    apply List.filterMap_congr
    intro x hx
    apply unread_congr (congrFun hcalled.susp x)
    intro y hy
    have hne : y ≠ cqe.addr := by
      rintro rfl
      exact hout (hinv.awaiters.suspended_inj hsusp hy ▸ hx)
    rw [hmem, Function.update_of_ne hne]
  have hops : done.map Prod.fst ++ (s'.sq ++ s'.inflight).map Entry.op ~
      List.range s'.made.length := by
    rw [hcalled.sq, hcalled.inflight, hcalled.made]
    exact h.ops
  have hpending : s.pending = (aw.op, aw.info.cb.stores aw.info.data cqe.res) ::
      (s'.unhandled.map (fun c => valueOf s'.made (c.op, c.res)) ++
        s.tokens.filterMap (unread s'.mem s'.susp)) := by
    unfold State.pending
    rw [hcalled.unhandled, hcalled.made, List.map_cons, hvalue, hread]
    rfl
  have hvalues := h.values
  have htokens := hcalled.tokens
  rw [hpending] at hvalues
  refine ⟨hops, ?_⟩
  rw [hcalled.made]
  apply hvalues.trans
  split_ifs at htokens ⊢ with hdiscard
  · have hsame : s'.tokens.filterMap (unread s'.mem s'.susp) =
        s.tokens.filterMap (unread s'.mem s'.susp) := by rw [htokens]
    unfold State.pending
    rw [hsame, ← List.append_assoc got, List.append_assoc (got ++ lost)]
    exact List.Perm.refl _
  · have hnew : unread s'.mem s'.susp h' =
        some (aw.op, aw.info.cb.stores aw.info.data cqe.res) := by
      have hnow : s'.susp h' = some cqe.addr := hcalled.susp ▸ hsusp
      have hstored : s'.mem cqe.addr = some { aw with info := aw.info.call cqe.res } := by
        rw [hmem, Function.update_self]
      have hunread := unread_eq hnow hstored rfl
      exact hunread
    rw [List.append_nil]
    apply List.Perm.append_left
    unfold State.pending
    have hall := htokens.filterMap (unread s'.mem s'.susp)
    rw [List.filterMap_cons_some hnew] at hall
    apply List.Perm.trans _ (hall.symm.append_left _)
    exact List.perm_middle.symm

theorem Delivered.step (h : Delivered done got lost s) (hinv : Alive s)
    (hr : (Context.machine cfg).Reachable s.ctx) {a : Label} (hproper : Proper s a)
    (hs : step cfg s a = some s') :
    Delivered (done ++ completed s a) (got ++ obtained s a) (lost ++ discarded cfg s a) s' := by
  cases step_cases hs with
  | ctx hallows hctx =>
    simp only [completed, obtained, discarded, List.append_nil]
    exact h.follow hinv.matched hallows hproper hctx
  | construct _ _ hfree hctx =>
    simp only [completed, obtained, discarded, List.append_nil]
    exact h.construct hinv hfree _ hctx
  | await hcur hrun haw =>
    simp only [completed, obtained, discarded, List.append_nil]
    exact h.await hinv hcur hrun haw
  | @resume x addr rest hcur hsusp =>
    obtain ⟨aw, haw, hh⟩ := (hinv.awaiters.suspended ..).mp hsusp
    have htoken : x ∈ s.tokens := (tokens_cons hcur).mem_iff.mpr List.mem_cons_self
    obtain ⟨v, hv⟩ :=
      Option.ne_none_iff_exists'.mp (hinv.awaiters.written x htoken addr aw hsusp haw)
    have hgot : obtained s .resume = [(aw.op, v)] := by
      unfold obtained
      rw [hcur]
      show (unread s.mem s.susp x).toList = _
      rw [unread_eq hsusp haw hv]
      rfl
    rw [hgot]
    simp only [completed, discarded, List.append_nil]
    exact h.resume hinv hcur hsusp haw hh hv
  | transfer hcur hrun =>
    simp only [completed, obtained, discarded, List.append_nil]
    apply h.switch hcur hrun
    rintro y ⟨⟩
    exact hproper
  | suspend hcur hrun =>
    simp only [completed, obtained, discarded, List.append_nil]
    exact h.switch hcur hrun (by simp)
  | @complete i res e _ he hctx =>
    have hdone : completed s (.complete i res) = [(e.op, res)] := by
      show (s.inflight[i]?.map fun e => (e.op, res)).toList = _
      rw [he]
      rfl
    rw [hdone]
    simp only [obtained, discarded, List.append_nil]
    exact h.complete hinv.matched (Context.books_of_reachable hr) he res hctx
  | callback hnext hctx =>
    obtain ⟨_, _, _, _, haw, hh⟩ := next_eq hnext
    have hcalled := hinv.matched.callback hr hnext hctx
    simp only [completed, obtained, discarded, hnext, List.append_nil]
    exact h.callback hinv (hcalled _) haw hh rfl

end Steps

theorem delivered_of_run {as : List Label} (hrun : (machine cfg).run newState as = some s)
    (hproper : (machine cfg).Along (fun s a _ => Proper s a) newState as) :
    (machine cfg).ReachableUnder Proper s ∧
      Delivered ((machine cfg).shown completed newState as)
        ((machine cfg).shown obtained newState as)
        ((machine cfg).shown (discarded cfg) newState as) s := by
  apply hproper.path_invariant (I := fun as s => (machine cfg).ReachableUnder Proper s ∧
    Delivered ((machine cfg).shown completed newState as)
      ((machine cfg).shown obtained newState as)
      ((machine cfg).shown (discarded cfg) newState as) s) _ _ hrun
  · exact ⟨.init rfl, delivered_newState⟩
  · rintro as s a s' hrun ⟨hr, hdelivered⟩ hproper hs
    rw [Machine.shown_concat hrun hs, Machine.shown_concat hrun hs,
      Machine.shown_concat hrun hs]
    refine ⟨hr.step hproper hs, ?_⟩
    exact hdelivered.step (alive_of_reachable hr) (reachable_ctx hr.reachable) hproper hs

/-- Every operation is completed at most once, and what is not completed is
with the kernel or in the submission queue.  The values of the completions
are those that the coroutines got, each operation once, those that went with
a discarded handle, and those that are on their way. -/
theorem results_delivered (cfg : Context.Config) (s : State) (as : List Label)
    (hrun : (machine cfg).run newState as = some s)
    (hproper : (machine cfg).Along (fun s a _ => Proper s a) newState as) :
    let done := (machine cfg).shown completed newState as
    let got := (machine cfg).shown obtained newState as
    let lost := (machine cfg).shown (discarded cfg) newState as
    (done.map Prod.fst ++ (s.sq ++ s.inflight).map Entry.op).Perm (List.range s.made.length) ∧
      (done.map (valueOf s.made)).Perm (got ++ lost ++ s.pending) ∧
      (got.map Prod.fst).Nodup := by
  intro done got lost
  have hdelivered := (delivered_of_run hrun hproper).2
  refine ⟨hdelivered.ops, hdelivered.values, ?_⟩
  have hdone : (done.map Prod.fst).Nodup := by
    have hall := hdelivered.ops.nodup_iff.mpr List.nodup_range
    exact (List.nodup_append.mp hall).1
  rw [← map_fst_valueOf s.made, (hdelivered.values.map Prod.fst).nodup_iff, List.append_assoc,
    List.map_append] at hdone
  exact (List.nodup_append.mp hdone).1

/-- The timeout of the timer is on its way. -/
theorem results_delivered_timer : ∃ s : State,
    (machine smallConfig).run newState oneTimer = some s ∧
      [(0, 0)].Perm ([] ++ [] ++ s.pending) := by
  have hsome : ((machine smallConfig).runUnder Proper newState oneTimer).isSome = true := by decide
  obtain ⟨s, hunder⟩ := Option.isSome_iff_exists.mp hsome
  obtain ⟨halong, hrun⟩ := Machine.Along.of_runUnder hunder
  have hmade : s.made = [.timer] := by
    have htest : ((machine smallConfig).run newState oneTimer).map
        (fun s => decide (s.made = [.timer])) = some true := by decide
    rw [hrun] at htest
    exact of_decide_eq_true (Option.some.inj htest)
  have hvalues := (results_delivered smallConfig s oneTimer hrun halong).2.1
  rw [hmade] at hvalues
  exact ⟨s, hrun, hvalues⟩

/-! ## A worker that sleeps -/

/-- The callers keep what they promise, and so does the kernel. -/
def Timely (s : State) (a : Label) : Prop :=
  Proper s a ∧ match a with
    | .ctx b => Context.KernelAssumption s.ctx b
    | _ => True

instance (s : State) : DecidablePred (Timely s) := fun a =>
  match a with
  | .ctx b => inferInstanceAs (Decidable (_ ∧ Context.KernelAssumption s.ctx b))
  | .construct .. | .await _ | .resume | .transfer _ | .suspend | .complete .. | .callback =>
    inferInstanceAs (Decidable (_ ∧ True))

theorem reachable_ctx_of_timely (h : (machine cfg).ReachableUnder Timely s) :
    (Context.machine cfg).ReachableUnder Context.KernelAssumption s.ctx := by
  apply h.invariant (I := fun s =>
    (Context.machine cfg).ReachableUnder Context.KernelAssumption s.ctx)
  · rintro s rfl
    exact .init rfl
  · intro s a s' _ hctx htimely hs
    cases step_cases hs with
    | ctx _ hstep => exact hctx.step htimely.2 hstep
    | construct _ _ _ hstep =>
      exact hctx.step (show Context.KernelAssumption _ (.act .prepareIo) from trivial) hstep
    | complete _ hstep =>
      exact hctx.step (show Context.KernelAssumption _ .complete from trivial) hstep
    | callback _ hstep =>
      exact hctx.step (show Context.KernelAssumption _ (.callback _) from trivial) hstep
    | await | resume | transfer | suspend => exact hctx

/-- When a worker of a scheduler sleeps and nothing is on its way to wake it,
every result that the kernel has posted was delivered.  The other operations
are with the kernel, or in the submission queue, each operation in one of the
places, and a coroutine that waits for a result waits for one of these. -/
theorem asleep_delivered (cfg : Context.Config) (hsched : cfg.scheduled = true) (s : State)
    (as : List Label) (hrun : (machine cfg).run newState as = some s)
    (htimely : (machine cfg).Along (fun s a _ => Timely s a) newState as)
    (hpc : s.ctx.pc = .waitEventfd) (hcounter : s.ctx.counter = 0)
    (hpend : s.ctx.pendTask = 0 ∧ s.ctx.pendStop = 0 ∧ s.ctx.pendCqe = 0) :
    let got := (machine cfg).shown obtained newState as
    let lost := (machine cfg).shown (discarded cfg) newState as
    (((machine cfg).shown completed newState as).map (valueOf s.made)).Perm (got ++ lost) ∧
      ((got ++ lost).map Prod.fst ++ (s.sq ++ s.inflight).map Entry.op).Perm
        (List.range s.made.length) ∧
      ∀ h addr aw, s.susp h = some addr → s.mem addr = some aw → aw.info.result = none →
        ⟨addr, aw.op⟩ ∈ s.sq ++ s.inflight := by
  intro got lost
  have hr : (machine cfg).ReachableUnder Timely s := by
    apply htimely.path_invariant (I := fun _ s => (machine cfg).ReachableUnder Timely s) _ _ hrun
    · exact .init rfl
    · intro as s a s' _ hr htimely hs
      exact hr.step htimely hs
  obtain ⟨hproper, hdelivered⟩ := delivered_of_run hrun (htimely.imp fun _ _ _ _ h => h.1)
  have hinv := alive_of_reachable hproper
  have hbooks := Context.books_of_reachable (reachable_ctx hproper.reachable)
  obtain ⟨hqueue, hcq, _⟩ := (Context.inv_of_reachable hsched (reachable_ctx_of_timely hr)).asleep
    hbooks hpc hcounter hpend
  have hloop : s.ctx.inLoop := hbooks.resting (by rw [hpc]; rfl)
  have hcur : s.cur = [] := by
    apply List.eq_nil_of_length_eq_zero
    rw [hinv.matched.cur, hloop.1]
    rfl
  have hunhandled : s.unhandled = [] := by
    have hnil : s.cq = [] := List.eq_nil_of_length_eq_zero (hinv.matched.cq.trans hcq)
    unfold State.unhandled
    rw [hnil, List.drop_nil]
  have hpending : s.pending = [] := by
    unfold State.pending State.tokens
    rw [hunhandled, hqueue, hcur]
    rfl
  have hvalues := hdelivered.values
  rw [hpending, List.append_nil] at hvalues
  refine ⟨hvalues, ?_, ?_⟩
  · have hdone := hvalues.map Prod.fst
    rw [map_fst_valueOf] at hdone
    exact (hdone.symm.append_right _).trans hdelivered.ops
  · intro h addr aw _ haw hres
    obtain ⟨e, he, haddr⟩ := hinv.awaiters.owed addr aw haw hres
    obtain ⟨aw', haw', hop, _⟩ := hinv.awaiters.alive e he
    rw [haddr, haw] at haw'
    obtain rfl : aw = aw' := Option.some.inj haw'
    unfold State.waiting at he
    rw [hunhandled, List.map_nil, List.append_nil] at he
    rw [← haddr, hop]
    exact he

/-- The coroutine reads the timeout and ends, and the worker goes to sleep. -/
def timerRead : List Label :=
  oneTimer ++ [.callback, .ctx .wakeUp, .ctx (.run 0), .ctx (.run 0), .ctx (.run 0),
    .ctx (.run 0), .resume, .suspend, .ctx .leave] ++ List.replicate 13 (.ctx (.run 0))

theorem asleep_delivered_timer : ∃ s : State,
    (machine smallConfig).run newState timerRead = some s ∧
      (((machine smallConfig).shown obtained newState timerRead ++
        (machine smallConfig).shown (discarded smallConfig) newState timerRead).map Prod.fst ++
        (s.sq ++ s.inflight).map Entry.op).Perm [0] := by
  have hsome : ((machine smallConfig).runUnder Timely newState timerRead).isSome = true := by
    decide
  obtain ⟨s, hunder⟩ := Option.isSome_iff_exists.mp hsome
  obtain ⟨halong, hrun⟩ := Machine.Along.of_runUnder hunder
  have hend : s.ctx.pc = .waitEventfd ∧ s.ctx.counter = 0 ∧
      (s.ctx.pendTask = 0 ∧ s.ctx.pendStop = 0 ∧ s.ctx.pendCqe = 0) ∧ s.made.length = 1 := by
    have htest : ((machine smallConfig).run newState timerRead).map (fun s =>
        decide (s.ctx.pc = .waitEventfd ∧ s.ctx.counter = 0 ∧
          (s.ctx.pendTask = 0 ∧ s.ctx.pendStop = 0 ∧ s.ctx.pendCqe = 0) ∧
          s.made.length = 1)) = some true := by decide
    rw [hrun] at htest
    exact of_decide_eq_true (Option.some.inj htest)
  obtain ⟨hpc, hcounter, hpend, hmade⟩ := hend
  obtain ⟨_, hops, _⟩ :=
    asleep_delivered smallConfig rfl s timerRead hrun halong hpc hcounter hpend
  rw [hmade] at hops
  exact ⟨s, hrun, hops⟩

end SheepCoro.Io
