import SheepCoro.Lib.History
import SheepCoro.Context.Model

/-!
# I/O operations and their awaiters

The machine of `SheepCoro.Context` counts operations.  Here they have
identities: an awaiter is an object at an address, in the frame of the
coroutine that awaits it, and the entry it prepares carries that address
(`io_uring_sqe_set_data(m_urs, &m_info)`).  The kernel hands the address back
with the completion, and `handle_cqe_entry` calls through it.

A state has a state of the context in it, and a step is a step of the context
(`Label.ctx?`) with what it does to the entries, the awaiters and the
coroutines.  What the context leaves open is settled here: the coroutine that
a callback submits is the one that `await_suspend` stored in the awaiter.

The addresses are reused: an awaiter is gone when its coroutine has read the
result.  `op` numbers the awaiters in the order of their construction, and
`made` has their requests; the code has no such thing, and no step reads it.
-/

namespace SheepCoro.Io

open Lib

/-! ## Awaiters -/

/-- `io_type`. -/
inductive IoType
  | nop
  | tcpAccept
  | tcpConnect
  | tcpClose
  | tcpRead
  | tcpWrite
  | stdin
  | timer
  | none
deriving DecidableEq

/-- The functions that `cb` can point to, one for each class of awaiters. -/
inductive Callback
  | noop
  | stdin
  | tcpAccept
  | tcpRead
  | tcpWrite
  | tcpClose
  | tcpConnect
  | timer
deriving DecidableEq

/-- `io_info`. -/
structure IoInfo where
  /-- `none` until `await_suspend`. -/
  handle : Option Nat
  /-- `none` until the callback. -/
  result : Option (BitVec 32)
  type : IoType
  data : BitVec 64
  cb : Callback
deriving DecidableEq

def etime : BitVec 32 := 62

/-- `static_cast<int>(data->data)`. -/
def sockfdOf (data : BitVec 64) : BitVec 32 :=
  data.setWidth 32

/-- The result that a callback stores, from `data->data` and `res`. -/
def Callback.stores : Callback → BitVec 64 → BitVec 32 → BitVec 32
  | .noop, _, res => res
  | .stdin, _, res => res
  | .tcpAccept, _, res => res
  | .tcpRead, _, res => res
  | .tcpWrite, _, res => res
  | .tcpClose, _, res => res
  | .tcpConnect, data, res => if res ≠ 0 then res else sockfdOf data
  -- ignore timeout error
  | .timer, _, res => if res = -etime then 0 else res

/-- What every callback does before it submits the handle. -/
def IoInfo.call (info : IoInfo) (res : BitVec 32) : IoInfo :=
  { info with result := some (info.cb.stores info.data res) }

/-- The constructors of the awaiters.  Of the arguments only the socket of
`tcp_connect_awaiter` stays in the awaiter; the others go into the entry. -/
inductive Request
  | noop
  | stdin
  | tcpAccept
  | tcpRead
  | tcpWrite
  | tcpClose
  | tcpConnect (sockfd : BitVec 32)
  | timer
deriving DecidableEq

/-- `m_info` after the constructor.  `CASTDATA` extends the sign; the awaiters
without a socket leave `data` alone. -/
def Request.info : Request → IoInfo
  | .noop => ⟨.none, .none, .nop, 0, .noop⟩
  | .stdin => ⟨.none, .none, .stdin, 0, .stdin⟩
  | .tcpAccept => ⟨.none, .none, .tcpAccept, 0, .tcpAccept⟩
  | .tcpRead => ⟨.none, .none, .tcpRead, 0, .tcpRead⟩
  | .tcpWrite => ⟨.none, .none, .tcpWrite, 0, .tcpWrite⟩
  | .tcpClose => ⟨.none, .none, .tcpClose, 0, .tcpClose⟩
  | .tcpConnect sockfd => ⟨.none, .none, .tcpConnect, sockfd.signExtend 64, .tcpConnect⟩
  | .timer => ⟨.none, .none, .timer, 0, .timer⟩

/-- The value of an awaiter whose operation ends with `res`. -/
def Request.value (req : Request) (res : BitVec 32) : BitVec 32 :=
  match req with
  | .tcpConnect sockfd => if res ≠ 0 then res else sockfd
  | .timer => if res = -etime then 0 else res
  | _ => res

/-- The socket comes through the cast to `uintptr_t` and back. -/
theorem sockfdOf_signExtend (sockfd : BitVec 32) : sockfdOf (sockfd.signExtend 64) = sockfd := by
  unfold sockfdOf
  apply BitVec.eq_of_getLsbD_eq
  intro i hi
  simp [BitVec.getLsbD_signExtend, hi]
  omega

theorem stores_info (req : Request) (res : BitVec 32) :
    req.info.cb.stores req.info.data res = req.value res := by
  cases req with
  | tcpConnect sockfd =>
    show (if res ≠ 0 then res else sockfdOf (sockfd.signExtend 64)) = _
    rw [sockfdOf_signExtend]
    rfl
  | _ => rfl

/-! ## The machine -/

/-- An awaiter in the frame of a coroutine. -/
structure Awaiter where
  info : IoInfo
  op : Nat
deriving DecidableEq

/-- An entry of the submission queue: the user data, and whose it is. -/
structure Entry where
  addr : Nat
  op : Nat
deriving DecidableEq

/-- An entry of the completion queue. -/
structure Cqe extends Entry where
  res : BitVec 32
deriving DecidableEq

structure State where
  ctx : Context.State
  /-- The awaiters. -/
  mem : Nat → Option Awaiter
  /-- The entries that the kernel has not taken. -/
  sq : List Entry
  /-- The operations that the kernel works on. -/
  inflight : List Entry
  cq : List Cqe
  /-- The awaiter at which a coroutine is suspended. -/
  susp : Nat → Option Nat
  /-- The coroutine that runs in each `exec_task` call, the innermost first;
  `none` when the coroutine is suspended or done and the call will return. -/
  cur : List (Option Nat)
  /-- The awaiters that were constructed and not awaited yet. -/
  loose : List Nat
  made : List Request

inductive Label
  /-- A step of the context that leaves awaiters alone. -/
  | ctx (a : Context.Label)
  /-- The constructor of an awaiter. -/
  | construct (req : Request) (addr : Nat)
  /-- `await_suspend`. -/
  | await (addr : Nat)
  /-- `await_resume`, and the end of the awaiter. -/
  | resume
  /-- Control goes to another coroutine: one that is awaited, or one that
  awaited. -/
  | transfer (h : Nat)
  /-- The coroutine is suspended at something else, or done. -/
  | suspend
  /-- The kernel completes the `i`-th operation that it works on. -/
  | complete (i : Nat) (res : BitVec 32)
  /-- `handle_cqe_entry`. -/
  | callback

/-- The coroutine that runs has just been resumed at an awaiter. -/
def State.resuming (s : State) : Bool :=
  match s.cur with
  | some h :: _ => (s.susp h).isSome
  | _ => false

/-- The steps of the context that are steps here, and when. -/
def State.allows (s : State) : Context.Label → Bool
  | .act .prepareIo | .callback _ | .complete => false
  | .act _ => !s.resuming
  | .leave => s.cur.head? = some none
  | _ => true

/-- The kernel takes the first `num` entries. -/
def State.take (s : State) (num : Nat) : State :=
  { s with sq := s.sq.drop num, inflight := s.inflight ++ s.sq.take num }

/-- `submit_task` calls `exec_task` if the queue is full. -/
def State.enter (cfg : Context.Config) (s : State) (h : Nat) : State :=
  if s.ctx.taskQueue.length < cfg.queCap ∨ cfg.maxRecursiveDepth ≤ s.ctx.recursiveDepth then s
  else { s with cur := some h :: s.cur }

/-- What a step of the context does to the entries and the coroutines. -/
def State.follow (cfg : Context.Config) (s : State) : Context.Label → State
  | .run num =>
    match s.ctx.pc with
    | .work (_ + 1) => { s with cur := (s.ctx.taskQueue.take 1).map some }
    | .doIoSubmit => if 0 < s.ctx.numIoWaitSubmit then s.take num else s
    | .handle _ n => { s with cq := s.cq.drop n }
    | _ => s
  | .act (.earlySubmit num) => s.take num
  | .act (.submit h) => s.enter cfg h
  | .leave => { s with cur := s.cur.tail }
  | _ => s

/-- The completion whose turn it is in `poll_submit`, its awaiter, and the
handle in it. -/
def State.next (s : State) : Option (Cqe × Awaiter × Nat) :=
  match s.ctx.pc with
  | .handle (left + 1) num => do
    let cqe ← s.cq[num - (left + 1)]?
    let aw ← s.mem cqe.addr
    let h ← aw.info.handle
    some (cqe, aw, h)
  | _ => none

def step (cfg : Context.Config) (s : State) : Label → Option State
  | .ctx a =>
    if s.allows a then
      (Context.step cfg s.ctx a).map fun ctx => { s.follow cfg a with ctx }
    else none
  | .construct req addr =>
    match s.cur with
    | some h :: _ =>
      if s.susp h = none ∧ s.mem addr = none then
        (Context.step cfg s.ctx (.act .prepareIo)).map fun ctx => { s with
          ctx
          mem := Function.update s.mem addr (some ⟨req.info, s.made.length⟩)
          sq := s.sq ++ [⟨addr, s.made.length⟩]
          loose := addr :: s.loose
          made := s.made ++ [req] }
      else none
    | _ => none
  | .await addr =>
    match s.cur, s.mem addr with
    | some h :: rest, some aw =>
      if s.susp h = none ∧ aw.info.handle = none then
        some { s with
          mem := Function.update s.mem addr (some { aw with info.handle := some h })
          susp := Function.update s.susp h (some addr)
          cur := none :: rest
          loose := s.loose.erase addr }
      else none
    | _, _ => none
  | .resume =>
    match s.cur with
    | some h :: _ =>
      match s.susp h with
      | some addr => some { s with
          mem := Function.update s.mem addr none
          susp := Function.update s.susp h none }
      | none => none
    | _ => none
  | .transfer h' =>
    match s.cur with
    | some h :: rest => if s.susp h = none then some { s with cur := some h' :: rest } else none
    | _ => none
  | .suspend =>
    match s.cur with
    | some h :: rest => if s.susp h = none then some { s with cur := none :: rest } else none
    | _ => none
  | .complete i res =>
    match s.inflight[i]? with
    | some e => (Context.step cfg s.ctx .complete).map fun ctx => { s with
        ctx
        inflight := s.inflight.eraseIdx i
        cq := s.cq ++ [⟨e, res⟩] }
    | none => none
  | .callback =>
    match s.next with
    | some (cqe, aw, h) => (Context.step cfg s.ctx (.callback h)).map fun ctx =>
        { s.enter cfg h with
          ctx
          mem := Function.update s.mem cqe.addr (some { aw with info := aw.info.call cqe.res }) }
    | none => none

variable {cfg : Context.Config} {s s' : State} {a : Label}

/-- What a step does, one case for each label. -/
inductive StepCase (cfg : Context.Config) (s : State) : Label → State → Prop
  | ctx {a : Context.Label} {ctx : Context.State} (hallows : s.allows a = true)
      (hctx : Context.step cfg s.ctx a = some ctx) :
    StepCase cfg s (.ctx a) { s.follow cfg a with ctx }
  | construct {req : Request} {addr h : Nat} {rest : List (Option Nat)} {ctx : Context.State}
      (hcur : s.cur = some h :: rest) (hrun : s.susp h = none) (hfree : s.mem addr = none)
      (hctx : Context.step cfg s.ctx (.act .prepareIo) = some ctx) :
    StepCase cfg s (.construct req addr) { s with
      ctx
      mem := Function.update s.mem addr (some ⟨req.info, s.made.length⟩)
      sq := s.sq ++ [⟨addr, s.made.length⟩]
      loose := addr :: s.loose
      made := s.made ++ [req] }
  | await {addr h : Nat} {rest : List (Option Nat)} {aw : Awaiter}
      (hcur : s.cur = some h :: rest) (hrun : s.susp h = none) (haw : s.mem addr = some aw)
      (hnew : aw.info.handle = none) :
    StepCase cfg s (.await addr) { s with
      mem := Function.update s.mem addr (some { aw with info.handle := some h })
      susp := Function.update s.susp h (some addr)
      cur := none :: rest
      loose := s.loose.erase addr }
  | resume {h addr : Nat} {rest : List (Option Nat)} (hcur : s.cur = some h :: rest)
      (hsusp : s.susp h = some addr) :
    StepCase cfg s .resume { s with
      mem := Function.update s.mem addr none
      susp := Function.update s.susp h none }
  | transfer {h h' : Nat} {rest : List (Option Nat)} (hcur : s.cur = some h :: rest)
      (hrun : s.susp h = none) : StepCase cfg s (.transfer h') { s with cur := some h' :: rest }
  | suspend {h : Nat} {rest : List (Option Nat)} (hcur : s.cur = some h :: rest)
      (hrun : s.susp h = none) : StepCase cfg s .suspend { s with cur := none :: rest }
  | complete {i : Nat} {res : BitVec 32} {e : Entry} {ctx : Context.State}
      (he : s.inflight[i]? = some e) (hctx : Context.step cfg s.ctx .complete = some ctx) :
    StepCase cfg s (.complete i res) { s with
      ctx
      inflight := s.inflight.eraseIdx i
      cq := s.cq ++ [⟨e, res⟩] }
  | callback {cqe : Cqe} {aw : Awaiter} {h : Nat} {ctx : Context.State}
      (hnext : s.next = some (cqe, aw, h))
      (hctx : Context.step cfg s.ctx (.callback h) = some ctx) :
    StepCase cfg s .callback { s.enter cfg h with
      ctx
      mem := Function.update s.mem cqe.addr (some { aw with info := aw.info.call cqe.res }) }

theorem step_cases (hs : step cfg s a = some s') : StepCase cfg s a s' := by
  cases a with
  | ctx a =>
    obtain ⟨hallows, hs⟩ := Option.ite_none_right_eq_some.mp hs
    obtain ⟨ctx, hctx, rfl⟩ := Option.map_eq_some_iff.mp hs
    exact .ctx hallows hctx
  | construct req addr =>
    simp only [step] at hs
    split at hs
    · next h rest hcur =>
      obtain ⟨⟨hrun, hfree⟩, hs⟩ := Option.ite_none_right_eq_some.mp hs
      obtain ⟨ctx, hctx, rfl⟩ := Option.map_eq_some_iff.mp hs
      exact .construct hcur hrun hfree hctx
    · cases hs
  | await addr =>
    simp only [step] at hs
    split at hs
    · next h rest aw hcur haw =>
      obtain ⟨⟨hrun, hnew⟩, ⟨⟩⟩ := Option.ite_none_right_eq_some.mp hs
      exact .await hcur hrun haw hnew
    · cases hs
  | resume =>
    simp only [step] at hs
    split at hs
    · next h rest hcur =>
      split at hs <;> cases hs
      exact .resume hcur ‹_›
    · cases hs
  | transfer h' =>
    simp only [step] at hs
    split at hs
    · obtain ⟨hrun, ⟨⟩⟩ := Option.ite_none_right_eq_some.mp hs
      exact .transfer ‹_› hrun
    · cases hs
  | suspend =>
    simp only [step] at hs
    split at hs
    · obtain ⟨hrun, ⟨⟩⟩ := Option.ite_none_right_eq_some.mp hs
      exact .suspend ‹_› hrun
    · cases hs
  | complete i res =>
    simp only [step] at hs
    split at hs
    · next e he =>
      obtain ⟨ctx, hctx, rfl⟩ := Option.map_eq_some_iff.mp hs
      exact .complete he hctx
    · cases hs
  | callback =>
    simp only [step] at hs
    split at hs
    · next cqe aw h hnext =>
      obtain ⟨ctx, hctx, rfl⟩ := Option.map_eq_some_iff.mp hs
      exact .callback hnext hctx
    · cases hs

/-- A new context without operations. -/
def newState : State where
  ctx := Context.newState
  mem _ := none
  sq := []
  inflight := []
  cq := []
  susp _ := none
  cur := []
  loose := []
  made := []

def machine (cfg : Context.Config) : Machine State Label where
  init s := s = newState
  step := step cfg

/-- A step here is a step of the context, or leaves the context alone. -/
theorem step_ctx (hs : step cfg s a = some s') :
    s'.ctx = s.ctx ∨ ∃ b, Context.step cfg s.ctx b = some s'.ctx := by
  cases step_cases hs with
  | ctx _ hctx => exact .inr ⟨_, hctx⟩
  | construct _ _ _ hctx => exact .inr ⟨_, hctx⟩
  | complete _ hctx => exact .inr ⟨_, hctx⟩
  | callback _ hctx => exact .inr ⟨_, hctx⟩
  | await | resume | transfer | suspend => exact .inl rfl

theorem reachable_ctx (h : (machine cfg).Reachable s) :
    (Context.machine cfg).Reachable s.ctx := by
  apply h.invariant (I := fun s => (Context.machine cfg).Reachable s.ctx)
  · rintro s rfl
    exact .init rfl
  · intro s a s' _ hctx hs
    rcases step_ctx hs with heq | ⟨b, hb⟩
    · exact heq ▸ hctx
    · exact hctx.next hb

/-! ## What the callers promise -/

/-- Nobody else is going to resume the coroutine. -/
def State.idle (s : State) (h : Nat) : Prop :=
  h ∉ s.ctx.taskQueue ∧ some h ∉ s.cur ∧ s.susp h = none

instance (s : State) (h : Nat) : Decidable (s.idle h) :=
  inferInstanceAs (Decidable (_ ∧ _ ∧ _))

/-- A coroutine is submitted, or entered, by whoever is to resume it, and an
awaiter is awaited in the expression that constructs it. -/
def Proper (s : State) : Label → Prop
  | .ctx (.push h) | .ctx (.act (.submit h)) | .transfer h => s.idle h
  | .ctx .leave => s.loose = []
  | _ => True

instance (s : State) : DecidablePred (Proper s) := fun a =>
  match a with
  | .ctx (.push h) | .ctx (.act (.submit h)) | .transfer h => inferInstanceAs (Decidable (s.idle h))
  | .ctx .leave => inferInstanceAs (Decidable (s.loose = []))
  | .ctx .start | .ctx (.run _) | .ctx .stopImpl | .ctx (.callback _) | .ctx (.act .prepareIo)
  | .ctx (.act (.earlySubmit _)) | .ctx (.act .registerWait) | .ctx (.act .unregisterWait)
  | .ctx .wakeUp | .ctx .write | .ctx .requestStop | .ctx .writeStop | .ctx .unregisterWait
  | .ctx .complete | .ctx .signal | .construct .. | .await _ | .resume | .suspend | .complete ..
  | .callback => .isTrue trivial

end SheepCoro.Io
