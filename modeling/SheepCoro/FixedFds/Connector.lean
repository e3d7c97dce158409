import SheepCoro.FixedFds.Pool

/-!
# Connectors

`tcp_connector` in `include/coro/io/net/tcp/tcp.hpp` over the registered
files of its engine.  Any number of connectors (`ι`) are constructed, read,
written, closed, copied and destroyed, and other objects (`κ`: the `fixed_fds`
of `tcp_server`) use the same pool.

A connector keeps what `assign` made of its descriptor and of its flags in
`m_sockfd` and `m_sqe_flag`.  A call prepares one entry for the submission
queue, from these members or, in `close`, from `m_original_fd`.  The prep
helpers keep the flags that are set before, and a fresh entry has none.

The kernel looks a slot up when the entry is submitted to it, which is later:
in `do_io_submit`, or in `base_io_awaiter` when there is no free entry left,
which in `close` comes between `return_back` and the preparation.  `sq` holds
the entries that were prepared and not submitted yet, the oldest first, with
the connector that prepared each.

`tcp_connector` and `fixed_fds` have the implicit copy constructor, which
copies the item: the copy and the original own the same slot, and each gives
it back.  Objects with a `fixed_fds` can also be assigned, apart from a
connector, whose `m_original_fd` is constant; the slot that the object had
before is then lost.

`gotSlot`, `closed` and `destroyed` are the history of a connector: whether
the pool had a slot when it was constructed, whether `close` has been called,
and whether the destructor has run.  The name of a connector is not used
again.
-/

namespace SheepCoro.Tcp

open Lib

inductive Opcode
  | recv
  | send
  | close
deriving DecidableEq

/-- An entry of the submission queue. -/
structure Sqe where
  opcode : Opcode
  fd : Int
  flags : Nat
deriving DecidableEq

/-- The members of `tcp_connector`, apart from `m_fixed_fd`, and its
history. -/
structure Connector where
  sockfd : Int
  originalFd : Int
  sqeFlag : Nat
  gotSlot : Bool
  closed : Bool
  destroyed : Bool
deriving DecidableEq

structure State (ι κ : Type) where
  /-- The pool, with the `m_fixed_fd` of the connectors on the left. -/
  pool : FixedFds.State (ι ⊕ κ)
  conns : ι → Option Connector
  /-- The entries that are not submitted yet. -/
  sq : List (ι × Sqe)

/-- In the calls that prepare an entry, `taken` entries are submitted while
the awaiter looks for a free one. -/
inductive Label (ι κ : Type)
  | construct (i : ι) (sockfd : Int)
  | read (i : ι) (taken : Nat)
  | write (i : ι) (taken : Nat)
  | close (i : ι) (taken : Nat)
  | destruct (i : ι)
  /-- `j` is copied from `i`. -/
  | copy (i j : ι)
  /-- The kernel takes the oldest entries. -/
  | submit (taken : Nat)
  /-- A step of another object that uses the pool. -/
  | other (l : FixedFds.Label κ)
  /-- `j` is copied from `i`, or `i` is assigned to `j`. -/
  | copyOther (i j : κ)

section Machine

variable {ι κ : Type} [DecidableEq ι] [DecidableEq κ]

/-- The pool's label of another object. -/
def poolLabel : FixedFds.Label κ → FixedFds.Label (ι ⊕ κ)
  | .construct j => .construct (.inr j)
  | .assign j fd flag => .assign (.inr j) fd flag
  | .returnBack j => .returnBack (.inr j)
  | .destruct j => .destruct (.inr j)

/-- The implicit copy constructor and copy assignment of `fixed_fds`. -/
def copyFds (p : FixedFds.State (ι ⊕ κ)) (x y : ι ⊕ κ) : Option (FixedFds.State (ι ⊕ κ)) :=
  (p.objs x).map fun item =>
    { p with
      objs := Function.update p.objs y (some item)
      owner := Function.update p.owner y (p.owner x) }

/-- The connector of a descriptor, where its `m_fixed_fd` has borrowed `item`. -/
def connect (u : FixedFds.Uring) (item : FixedFds.Item) (sockfd : Int) : Connector where
  sockfd := (FixedFds.assign u item sockfd 0).2.1
  originalFd := sockfd
  sqeFlag := (FixedFds.assign u item sockfd 0).2.2
  gotSlot := item.valid
  closed := false
  destroyed := false

/-- The connector, if its lifetime has begun and not ended. -/
def State.live (s : State ι κ) (i : ι) : Option Connector :=
  (s.conns i).filter fun c => !c.destroyed

def State.setConn (s : State ι κ) (i : ι) (c : Connector) : State ι κ :=
  { s with conns := Function.update s.conns i (some c) }

/-- The constructor of an awaiter: `base_io_awaiter`, then the preparation. -/
def State.prepare (s : State ι κ) (taken : Nat) (i : ι) (sqe : Sqe) : State ι κ :=
  { s with sq := s.sq.drop taken ++ [(i, sqe)] }

def step (s : State ι κ) : Label ι κ → Option (State ι κ)
  | .construct i sockfd =>
    match s.conns i with
    | some _ => none
    | none =>
      (FixedFds.step s.pool (.construct (.inl i))).bind fun p =>
        (p.objs (.inl i)).bind fun item =>
          (FixedFds.step p (.assign (.inl i) sockfd 0)).map fun q =>
            { s with pool := q }.setConn i (connect p.uring item sockfd)
  | .read i taken => (s.live i).map fun c => s.prepare taken i ⟨.recv, c.sockfd, c.sqeFlag⟩
  | .write i taken => (s.live i).map fun c => s.prepare taken i ⟨.send, c.sockfd, c.sqeFlag⟩
  | .close i taken =>
    (s.live i).bind fun c =>
      (FixedFds.step s.pool (.returnBack (.inl i))).map fun p =>
        ({ s with pool := p }.setConn i { c with closed := true }).prepare taken i
          ⟨.close, c.originalFd, 0⟩
  | .destruct i =>
    (s.live i).bind fun c =>
      (FixedFds.step s.pool (.destruct (.inl i))).map fun p =>
        { s with pool := p }.setConn i { c with destroyed := true }
  | .copy i j =>
    match s.conns j, s.pool.objs (.inl j) with
    | none, none =>
      (s.live i).bind fun c =>
        (copyFds s.pool (.inl i) (.inl j)).map fun p => { s with pool := p }.setConn j c
    | _, _ => none
  | .submit taken => some { s with sq := s.sq.drop taken }
  | .other l => (FixedFds.step s.pool (poolLabel l)).map fun p => { s with pool := p }
  | .copyOther i j => (copyFds s.pool (.inr i) (.inr j)).map fun p => { s with pool := p }

/-- The entry that a call prepares. -/
def prepared (s : State ι κ) : Label ι κ → Option (ι × Sqe)
  | .read i _ => (s.live i).map fun c => (i, ⟨.recv, c.sockfd, c.sqeFlag⟩)
  | .write i _ => (s.live i).map fun c => (i, ⟨.send, c.sockfd, c.sqeFlag⟩)
  | .close i _ => (s.live i).map fun c => (i, ⟨.close, c.originalFd, 0⟩)
  | _ => none

/-- The entries that are submitted in a step. -/
def submitted (s : State ι κ) : Label ι κ → List (ι × Sqe)
  | .read _ taken | .write _ taken | .close _ taken | .submit taken => s.sq.take taken
  | _ => []

/-- An engine with `n` slots, before any object is constructed. -/
def start (n : Nat) (nullFds : Int → Int) : State ι κ :=
  ⟨⟨.init n nullFds, fun _ => none, fun _ => none⟩, fun _ => none, []⟩

def machine (n : Nat) (nullFds : Int → Int) : Machine (State ι κ) (Label ι κ) where
  init s := s = start n nullFds
  step := step

/-- The entry names the connector's own descriptor, or a slot that the
connector holds and in which the kernel finds this descriptor. -/
def Own (s : State ι κ) (e : ι × Sqe) : Prop :=
  ∃ c, s.conns e.1 = some c ∧
    (e.2.flags = 0 ∧ e.2.fd = c.originalFd ∨
      e.2.flags = FixedFds.fixedFile ∧ s.pool.held (.inl e.1) = some e.2.fd ∧
        s.pool.uring.table e.2.fd = c.originalFd)

/-- What a step prepares and what it submits is the connector's own, with the
pool as the step leaves it: `close` gives the slot back first. -/
def ReachesOwn (s : State ι κ) (l : Label ι κ) (s' : State ι κ) : Prop :=
  (∀ e ∈ prepared s l, Own s' e) ∧ ∀ e ∈ submitted s l, Own s' e

/-- An object that has a slot is copied or assigned to. -/
def CopiesSlot (s : State ι κ) : Label ι κ → Prop
  | .copy i _ => s.pool.held (.inl i) ≠ none
  | .copyOther i j => s.pool.held (.inr i) ≠ none ∨ s.pool.held (.inr j) ≠ none
  | _ => False

/-- No connector that had a slot is read or written after `close`, none is
closed or destroyed while an entry that names its slot is not submitted, and
no object that has a slot is copied or assigned to. -/
def Careful (s : State ι κ) : Label ι κ → Prop
  | .read i _ | .write i _ => ∀ c ∈ s.conns i, ¬ (c.gotSlot = true ∧ c.closed = true)
  | .close i _ | .destruct i => ∀ e ∈ s.sq, e.1 = i → e.2.flags = 0
  | .copy i _ => s.pool.held (.inl i) = none
  | .copyOther i j => s.pool.held (.inr i) = none ∧ s.pool.held (.inr j) = none
  | _ => True

/-- What the members of a connector say about its slot. -/
structure Fits (s : State ι κ) (i : ι) (c : Connector) : Prop where
  plain : c.gotSlot = false → c.sockfd = c.originalFd ∧ c.sqeFlag = 0
  flag : c.gotSlot = true → c.sqeFlag = FixedFds.fixedFile
  holds : c.gotSlot = true → c.closed = false → c.destroyed = false →
    s.pool.held (.inl i) = some c.sockfd ∧ s.pool.owner (.inl i) = some c.originalFd
  returned : c.closed = true ∨ c.destroyed = true → s.pool.held (.inl i) = none

/-- The entry was made from the members of its connector. -/
def Named (s : State ι κ) (e : ι × Sqe) : Prop :=
  ∃ c, s.conns e.1 = some c ∧
    (e.2.flags = 0 ∧ e.2.fd = c.originalFd ∨
      e.2.flags = FixedFds.fixedFile ∧ c.gotSlot = true ∧ e.2.fd = c.sockfd)

structure Inv (n : Nat) (nullFds : Int → Int) (s : State ι κ) : Prop where
  pool : FixedFds.Inv n nullFds s.pool
  fits : ∀ i c, s.conns i = some c → Fits s i c
  named : ∀ e ∈ s.sq, Named s e

/-- The connector that gives its slot back in the step. -/
def Label.ends : Label ι κ → Option ι
  | .close i _ | .destruct i => some i
  | _ => none

end Machine

section Lemmas

variable {ι κ : Type} [DecidableEq ι] [DecidableEq κ] {n : Nat} {nullFds : Int → Int}
  {s s' : State ι κ} {i j : ι} {c : Connector} {p : FixedFds.State (ι ⊕ κ)} {fd : Int}
  {e : ι × Sqe} {l : Label ι κ}

omit [DecidableEq ι] [DecidableEq κ] in
theorem live_eq_some : s.live i = some c ↔ s.conns i = some c ∧ c.destroyed = false := by
  simp [State.live, Option.filter_eq_some_iff]

/-! ## What a step does to the connectors and to the entries -/

/-- A connector keeps its members, and only `close` and the destructor end
its claim to a slot. -/
theorem step_conns (hs : step s l = some s') (hi : s.conns i = some c) :
    ∃ c', s'.conns i = some c' ∧ c'.sockfd = c.sockfd ∧ c'.originalFd = c.originalFd ∧
      c'.gotSlot = c.gotSlot ∧ (c'.closed = false ∧ c'.destroyed = false ↔
        (c.closed = false ∧ c.destroyed = false) ∧ l.ends ≠ some i) := by
  -- Nothing happens to `i`, or another connector begins.
  have hsame : s'.conns i = s.conns i → l.ends ≠ some i → ∃ c', s'.conns i = some c' ∧
      c'.sockfd = c.sockfd ∧ c'.originalFd = c.originalFd ∧ c'.gotSlot = c.gotSlot ∧
      (c'.closed = false ∧ c'.destroyed = false ↔
        (c.closed = false ∧ c.destroyed = false) ∧ l.ends ≠ some i) := by
    intro heq hends
    exact ⟨c, heq.trans hi, rfl, rfl, rfl, by simp [hends]⟩
  have hfresh : ∀ {j}, s.conns j = none → i ≠ j := by
    rintro j hj rfl
    rw [hi] at hj
    cases hj
  cases l with
  | construct j fd =>
    simp only [step] at hs
    split at hs
    · cases hs
    · next hj =>
      simp only [Option.bind_eq_some_iff, Option.map_eq_some_iff] at hs
      obtain ⟨p, -, item, -, q, -, rfl⟩ := hs
      exact hsame (Function.update_of_ne (hfresh hj) ..) (by simp [Label.ends])
  | copy k j =>
    simp only [step] at hs
    split at hs
    · next hj _ =>
      simp only [Option.bind_eq_some_iff, Option.map_eq_some_iff] at hs
      obtain ⟨d, -, p, -, rfl⟩ := hs
      exact hsame (Function.update_of_ne (hfresh hj) ..) (by simp [Label.ends])
    · cases hs
  | read j | write j =>
    obtain ⟨d, -, rfl⟩ := Option.map_eq_some_iff.mp hs
    exact hsame rfl (by simp [Label.ends])
  | submit =>
    cases hs
    exact hsame rfl (by simp [Label.ends])
  | other | copyOther =>
    obtain ⟨p, -, rfl⟩ := Option.map_eq_some_iff.mp hs
    exact hsame rfl (by simp [Label.ends])
  | close j | destruct j =>
    simp only [step, Option.bind_eq_some_iff, Option.map_eq_some_iff] at hs
    obtain ⟨d, hd, p, -, rfl⟩ := hs
    by_cases hij : i = j
    · subst hij
      have hcd : c = d := Option.some.inj (hi.symm.trans (live_eq_some.mp hd).1)
      subst hcd
      refine ⟨_, Function.update_self .., rfl, rfl, rfl, ?_⟩
      simp [Label.ends]
    · refine hsame (Function.update_of_ne hij ..) ?_
      simpa [Label.ends] using fun h => hij h.symm

theorem Named.step (h : Named s e) (hs : Tcp.step s l = some s') : Named s' e := by
  obtain ⟨c, hc, hnamed⟩ := h
  obtain ⟨c', hc', hsock, horig, hgot, -⟩ := step_conns hs hc
  exact ⟨c', hc', by rwa [hsock, horig, hgot]⟩

/-- The entries that were pending are submitted or stay, and the one that is
prepared is put behind them. -/
theorem step_sq {P : ι × Sqe → Prop} (hs : step s l = some s') :
    (∀ e ∈ submitted s l, P e) ∧ (∀ e ∈ s'.sq, P e) ↔
      (∀ e ∈ s.sq, P e) ∧ ∀ e ∈ prepared s l, P e := by
  have hsplit : ∀ k, (∀ e ∈ s.sq.take k, P e) ∧ (∀ e ∈ s.sq.drop k, P e) ↔ ∀ e ∈ s.sq, P e := by
    intro k
    rw [← List.forall_mem_append, List.take_append_drop]
  cases l with
  | read i k | write i k =>
    obtain ⟨c, hc, rfl⟩ := Option.map_eq_some_iff.mp hs
    simp only [submitted, State.prepare, List.forall_mem_append, ← and_assoc, hsplit]
    simp [prepared, hc]
  | close i k =>
    simp only [step, Option.bind_eq_some_iff, Option.map_eq_some_iff] at hs
    obtain ⟨c, hc, p, -, rfl⟩ := hs
    simp only [submitted, State.prepare, State.setConn, List.forall_mem_append, ← and_assoc,
      hsplit]
    simp [prepared, hc]
  | submit k =>
    cases hs
    simp only [submitted, hsplit]
    simp [prepared]
  | construct i fd =>
    simp only [step] at hs
    split at hs
    · cases hs
    · simp only [Option.bind_eq_some_iff, Option.map_eq_some_iff] at hs
      obtain ⟨p, -, item, -, q, -, rfl⟩ := hs
      simp [submitted, prepared, State.setConn]
  | copy i j =>
    simp only [step] at hs
    split at hs
    · simp only [Option.bind_eq_some_iff, Option.map_eq_some_iff] at hs
      obtain ⟨d, -, p, -, rfl⟩ := hs
      simp [submitted, prepared, State.setConn]
    · cases hs
  | destruct i =>
    simp only [step, Option.bind_eq_some_iff, Option.map_eq_some_iff] at hs
    obtain ⟨c, -, p, -, rfl⟩ := hs
    simp [submitted, prepared, State.setConn]
  | other | copyOther =>
    obtain ⟨p, -, rfl⟩ := Option.map_eq_some_iff.mp hs
    simp [submitted, prepared]

/-! ## Who owns a slot -/

omit [DecidableEq ι] [DecidableEq κ] in
/-- Only the slot of the connector matters. -/
theorem Fits.congr (h : Fits s i c) (hheld : s'.pool.held (.inl i) = s.pool.held (.inl i))
    (howner : s'.pool.owner (.inl i) = s.pool.owner (.inl i)) : Fits s' i c where
  plain := h.plain
  flag := h.flag
  holds hgot hopen hlive := by
    rw [hheld, howner]
    exact h.holds hgot hopen hlive
  returned hend := by
    rw [hheld]
    exact h.returned hend

/-- The pool takes a step at another object. -/
theorem Fits.other {l : FixedFds.Label (ι ⊕ κ)} (h : Fits s i c)
    (hs : FixedFds.step s.pool l = some s'.pool) (hl : Sum.inl i ≠ l.obj) : Fits s' i c :=
  h.congr (FixedFds.step_others hs hl).1 (FixedFds.step_others hs hl).2

omit [DecidableEq ι] [DecidableEq κ] in
/-- Another object of the pool is not a connector. -/
theorem poolLabel_obj (i : ι) (l : FixedFds.Label κ) : Sum.inl i ≠ (poolLabel l).obj := by
  cases l <;> simp [poolLabel, FixedFds.Label.obj]

theorem connect_slot (u : FixedFds.Uring) {k : Int} (h : 0 ≤ k) :
    connect u (.slot k) fd = ⟨k, fd, FixedFds.fixedFile, true, false, false⟩ := by
  simp [connect, FixedFds.assign_slot u h, FixedFds.Item.slot_valid h, FixedFds.fixedFile]

theorem connect_invalid (u : FixedFds.Uring) :
    connect u .invalid fd = ⟨fd, fd, 0, false, false, false⟩ := rfl

/-- A connector that is constructed holds the slot that its members name. -/
theorem Fits.construct {q : FixedFds.State (ι ⊕ κ)} {item : FixedFds.Item}
    (hp : FixedFds.step s.pool (.construct (.inl i)) = some p)
    (hitem : p.objs (.inl i) = some item) (hinv : FixedFds.Inv n nullFds p)
    (hq : FixedFds.step p (.assign (.inl i) fd 0) = some q) (hpool : s'.pool = q) :
    Fits s' i (connect p.uring item fd) := by
  have hnew := FixedFds.construct_held hp hitem
  have hassign := FixedFds.assign_held hq hitem
  rcases hinv.items _ item hitem with rfl | ⟨k, hpos, rfl⟩
  · rw [connect_invalid]
    refine ⟨fun _ => ⟨rfl, rfl⟩, ?_, ?_, ?_⟩ <;> simp
  · rw [connect_slot _ hpos]
    refine ⟨by simp, fun _ => rfl, fun _ _ _ => ⟨?_, ?_⟩, by simp⟩
    · rw [hpool]
      exact hassign.1.trans (hnew.1.trans (FixedFds.Item.slot_index hpos))
    · rw [hpool, hassign.2, FixedFds.Item.slot_valid hpos, if_pos rfl]

/-- What a copy of an object without a slot does to the pool. -/
theorem copyFds_held {x y : ι ⊕ κ} {u : FixedFds.State (ι ⊕ κ)}
    (h : FixedFds.Inv n nullFds u) (hx : u.held x = none) (hy : u.held y = none)
    (hs : copyFds u x y = some p) :
    FixedFds.Inv n nullFds p ∧ (∀ z, p.held z = u.held z) ∧
      ∀ z, z ≠ y → p.owner z = u.owner z := by
  obtain ⟨item, hitem, rfl⟩ := Option.map_eq_some_iff.mp hs
  have hinvalid : item = .invalid := by
    rcases h.items x item hitem with rfl | ⟨k, hpos, rfl⟩
    · rfl
    · rw [FixedFds.held_of_some hitem, FixedFds.Item.slot_index hpos] at hx
      cases hx
  subst hinvalid
  have hheld : FixedFds.State.held { u with
      objs := Function.update u.objs y (some .invalid)
      owner := Function.update u.owner y (u.owner x) } = u.held := by
    rw [FixedFds.held_update]
    exact Function.update_eq_self_iff.mpr hy.symm
  refine ⟨⟨?_, hheld ▸ h.shares, h.nulls, h.synced, h.free, ?_⟩, congrFun hheld,
    fun z hz => Function.update_of_ne hz ..⟩
  · intro z item hz
    rcases update_eq_iff.mp hz with ⟨_, hnew⟩ | ⟨_, hold⟩
    · exact .inl (Option.some.inj hnew).symm
    · exact h.items z item hold
  · intro z k hz
    rw [hheld] at hz
    have hzy : z ≠ y := by
      rintro rfl
      rw [hy] at hz
      cases hz
    show u.uring.data k = (Function.update u.owner y (u.owner x) z).getD (u.uring.nullFds k)
    rw [Function.update_of_ne hzy]
    exact h.owned z k hz

/-- The pool and the connectors, where the pool takes a step at the connector
`i`. -/
theorem Inv.fits_update {l : FixedFds.Label (ι ⊕ κ)} {c' : Connector} (h : Inv n nullFds s)
    (hp : FixedFds.step s.pool l = some s'.pool) (hl : l.obj = .inl i)
    (hconns : s'.conns = Function.update s.conns i (some c')) (hfits : Fits s' i c') :
    ∀ j d, s'.conns j = some d → Fits s' j d := by
  intro j d hj
  rw [hconns] at hj
  rcases update_eq_iff.mp hj with ⟨rfl, hnew⟩ | ⟨hji, hold⟩
  · cases hnew
    exact hfits
  · exact (h.fits j d hold).other hp (by simpa [hl] using hji)

theorem Inv.pool_fits (h : Inv n nullFds s) (hs : Tcp.step s l = some s') (hl : ¬ CopiesSlot s l) :
    FixedFds.Inv n nullFds s'.pool ∧ ∀ j d, s'.conns j = some d → Fits s' j d := by
  cases l with
  | construct i fd =>
    simp only [Tcp.step] at hs
    split at hs
    · cases hs
    · simp only [Option.bind_eq_some_iff, Option.map_eq_some_iff] at hs
      obtain ⟨p, hp, item, hitem, q, hq, rfl⟩ := hs
      have hinv := h.pool.step hp
      refine ⟨hinv.step hq, ?_⟩
      intro j d hj
      rcases update_eq_iff.mp hj with ⟨rfl, hnew⟩ | ⟨hji, hold⟩
      · cases hnew
        exact Fits.construct hp hitem hinv hq rfl
      · have hne : (Sum.inl j : ι ⊕ κ) ≠ .inl i := by simpa using hji
        have hfirst : Fits { s with pool := p } j d := (h.fits j d hold).other hp hne
        exact hfirst.other hq hne
  | read i k | write i k =>
    obtain ⟨c, _, rfl⟩ := Option.map_eq_some_iff.mp hs
    exact ⟨h.pool, fun j d hj => (h.fits j d hj).congr rfl rfl⟩
  | submit k =>
    cases hs
    exact ⟨h.pool, fun j d hj => (h.fits j d hj).congr rfl rfl⟩
  | close i k =>
    simp only [Tcp.step, Option.bind_eq_some_iff, Option.map_eq_some_iff] at hs
    obtain ⟨c, hi, p, hp, rfl⟩ := hs
    have hfits := h.fits i c (live_eq_some.mp hi).1
    refine ⟨h.pool.step hp, h.fits_update hp rfl rfl ⟨hfits.plain, hfits.flag, by simp, ?_⟩⟩
    exact fun _ => FixedFds.returnBack_held hp
  | destruct i =>
    simp only [Tcp.step, Option.bind_eq_some_iff, Option.map_eq_some_iff] at hs
    obtain ⟨c, hi, p, hp, rfl⟩ := hs
    have hfits := h.fits i c (live_eq_some.mp hi).1
    refine ⟨h.pool.step hp, h.fits_update hp rfl rfl ⟨hfits.plain, hfits.flag, by simp, ?_⟩⟩
    exact fun _ => FixedFds.destruct_held hp
  | copy i j =>
    simp only [Tcp.step] at hs
    split at hs
    · next hobj =>
      simp only [Option.bind_eq_some_iff, Option.map_eq_some_iff] at hs
      obtain ⟨c, hi, p, hp, rfl⟩ := hs
      have hnone : s.pool.held (.inl i) = none := not_not.mp hl
      have hfresh : s.pool.held (.inl j) = none := FixedFds.held_of_none hobj
      obtain ⟨hinv, hheld, howner⟩ := copyFds_held h.pool hnone hfresh hp
      refine ⟨hinv, fun k d hk => ?_⟩
      rcases update_eq_iff.mp hk with ⟨rfl, hnew⟩ | ⟨hkj, hold⟩
      · cases hnew
        obtain ⟨hi, hlive⟩ := live_eq_some.mp hi
        have hfits := h.fits i c hi
        refine ⟨hfits.plain, hfits.flag, fun hgot hopen _ => ?_, fun _ => (hheld _).trans hfresh⟩
        rw [(hfits.holds hgot hopen hlive).1] at hnone
        cases hnone
      · exact (h.fits k d hold).congr (hheld _) (howner _ (by simpa using hkj))
    · cases hs
  | other l =>
    obtain ⟨p, hp, rfl⟩ := Option.map_eq_some_iff.mp hs
    exact ⟨h.pool.step hp, fun j d hj => (h.fits j d hj).other hp (poolLabel_obj j l)⟩
  | copyOther i j =>
    obtain ⟨p, hp, rfl⟩ := Option.map_eq_some_iff.mp hs
    obtain ⟨hi, hj⟩ := not_or.mp hl
    obtain ⟨hinv, hheld, howner⟩ := copyFds_held h.pool (not_not.mp hi) (not_not.mp hj) hp
    exact ⟨hinv, fun k d hk => (h.fits k d hk).congr (hheld _) (howner _ (by simp))⟩

omit [DecidableEq ι] [DecidableEq κ] in
/-- An entry is the connector's own as long as the connector has not given
its slot back, or when it names no slot. -/
theorem Inv.own_iff (h : Inv n nullFds s) (he : Named s e) (hc : s.conns e.1 = some c) :
    Own s e ↔ (e.2.flags = 0 ∨ c.closed = false ∧ c.destroyed = false) := by
  have hfits := h.fits e.1 c hc
  constructor
  · rintro ⟨d, hd, hown⟩
    cases hc.symm.trans hd
    rcases hown with ⟨hflags, _⟩ | ⟨_, hheld, _⟩
    · exact .inl hflags
    · right
      have hnot : ¬ (c.closed = true ∨ c.destroyed = true) := by
        intro hend
        rw [hfits.returned hend] at hheld
        cases hheld
      simpa using hnot
  · intro hopen
    obtain ⟨d, hd, hnamed⟩ := he
    cases hc.symm.trans hd
    refine ⟨c, hc, ?_⟩
    rcases hnamed with hplain | ⟨hflags, hgot, hfd⟩
    · exact .inl hplain
    · have hlive := hopen.resolve_left (by simp [hflags, FixedFds.fixedFile])
      obtain ⟨hheld, howner⟩ := hfits.holds hgot hlive.1 hlive.2
      rw [← hfd] at hheld
      refine .inr ⟨hflags, hheld, ?_⟩
      rw [h.pool.synced, h.pool.owned _ _ hheld, howner, Option.getD_some]

omit [DecidableEq ι] [DecidableEq κ] in
/-- What `read` and `write` prepare. -/
theorem Inv.cached (h : Inv n nullFds s) (hi : s.conns i = some c) (o : Opcode) :
    Named s (i, ⟨o, c.sockfd, c.sqeFlag⟩) := by
  have hfits := h.fits i c hi
  refine ⟨c, hi, ?_⟩
  cases hgot : c.gotSlot with
  | false =>
    obtain ⟨hfd, hflag⟩ := hfits.plain hgot
    exact .inl ⟨hflag, hfd⟩
  | true => exact .inr ⟨hfits.flag hgot, rfl, rfl⟩

omit [DecidableEq ι] [DecidableEq κ] in
theorem Inv.cached_own (h : Inv n nullFds s) (hi : s.live i = some c) (o : Opcode) :
    Own s (i, ⟨o, c.sockfd, c.sqeFlag⟩) ↔ ¬ (c.gotSlot = true ∧ c.closed = true) := by
  obtain ⟨hconn, hlive⟩ := live_eq_some.mp hi
  have hfits := h.fits i c hconn
  rw [h.own_iff (h.cached hconn o) hconn]
  cases hgot : c.gotSlot with
  | false => simp [(hfits.plain hgot).2]
  | true => simp [hfits.flag hgot, FixedFds.fixedFile, hlive]

omit [DecidableEq ι] [DecidableEq κ] in
theorem Inv.named_prepared (h : Inv n nullFds s) (he : e ∈ prepared s l) : Named s e := by
  cases l with
  | read i | write i =>
    obtain ⟨c, hc, rfl⟩ := Option.map_eq_some_iff.mp he
    exact h.cached (live_eq_some.mp hc).1 _
  | close i =>
    obtain ⟨c, hc, rfl⟩ := Option.map_eq_some_iff.mp he
    exact ⟨c, (live_eq_some.mp hc).1, .inl ⟨rfl, rfl⟩⟩
  | construct | destruct | copy | submit | other | copyOther => cases he

theorem Inv.step (h : Inv n nullFds s) (hs : Tcp.step s l = some s') (hl : ¬ CopiesSlot s l) :
    Inv n nullFds s' := by
  obtain ⟨hpool, hfits⟩ := h.pool_fits hs hl
  refine ⟨hpool, hfits, ?_⟩
  refine ((step_sq hs).mpr ⟨fun e he => ?_, fun e he => ?_⟩).2
  · exact (h.named e he).step hs
  · exact (h.named_prepared he).step hs

omit [DecidableEq ι] [DecidableEq κ] in
theorem Inv.init : Inv n nullFds (start n nullFds : State ι κ) where
  pool := .init n nullFds
  fits i c h := by cases h
  named e h := by cases h

/-! ## One step -/

/-- A pending entry stays its connector's own, unless the step takes the slot
from the connector. -/
theorem Inv.own_step (h : Inv n nullFds s) (h' : Inv n nullFds s')
    (hs : Tcp.step s l = some s') (he : Named s e) :
    Own s' e ↔ Own s e ∧ (l.ends = some e.1 → e.2.flags = 0) := by
  have he' := he.step hs
  obtain ⟨c, hc, hnamed⟩ := id he
  obtain ⟨c', hc', -, -, -, hopen⟩ := step_conns hs hc
  rw [h'.own_iff he' hc', h.own_iff he hc, hopen]
  tauto

/-- A careful step prepares the connector's own, and takes no slot that a
pending entry names. -/
theorem Inv.careful_iff (h : Inv n nullFds s) (hs : Tcp.step s l = some s')
    (hl : ¬ CopiesSlot s l) :
    Careful s l ↔ (∀ e ∈ prepared s l, Own s' e) ∧
      ∀ e ∈ s.sq, l.ends = some e.1 → e.2.flags = 0 := by
  have hmine : ∀ {i : ι}, (∀ e ∈ s.sq, e.1 = i → e.2.flags = 0) ↔
      ∀ e ∈ s.sq, some i = some e.1 → e.2.flags = 0 := by
    intro i
    refine forall₂_congr fun e _ => imp_congr_left ?_
    rw [Option.some.injEq, eq_comm]
  cases l with
  | read i k | write i k =>
    obtain ⟨c, hc, rfl⟩ := Option.map_eq_some_iff.mp hs
    have hown := h.cached_own hc
    have hi := (live_eq_some.mp hc).1
    simp only [Careful, prepared, Label.ends, hi, hc, Option.map_some, Option.mem_some_iff,
      forall_eq']
    exact ⟨fun hnot => ⟨(hown _).mpr hnot, fun _ _ hends => by cases hends⟩,
      fun hall => (hown _).mp hall.1⟩
  | close i k =>
    simp only [Tcp.step, Option.bind_eq_some_iff, Option.map_eq_some_iff] at hs
    obtain ⟨c, hc, p, -, rfl⟩ := hs
    have hown : ∀ e ∈ prepared s (.close i k), Own (({ s with pool := p }.setConn i
        { c with closed := true }).prepare k i ⟨.close, c.originalFd, 0⟩) e := by
      intro e he
      obtain ⟨d, hd, rfl⟩ := Option.map_eq_some_iff.mp he
      cases hc.symm.trans hd
      exact ⟨_, Function.update_self .., .inl ⟨rfl, rfl⟩⟩
    exact hmine.trans ⟨fun hall => ⟨hown, hall⟩, fun hall => hall.2⟩
  | destruct i =>
    exact hmine.trans ⟨fun hall => ⟨fun e he => (by cases he), hall⟩, fun hall => hall.2⟩
  | copy i j =>
    have hnone := not_not.mp hl
    simp [Careful, prepared, Label.ends, hnone]
  | copyOther i j =>
    obtain ⟨hi, hj⟩ := not_or.mp hl
    simp [Careful, prepared, Label.ends, not_not.mp hi, not_not.mp hj]
  | construct | submit | other => simp [Careful, prepared, Label.ends]

/-- A step is careful with its connectors own exactly when what it prepares
and submits, and what it leaves pending, is the connectors' own. -/
theorem Inv.step_iff (h : Inv n nullFds s) (hs : Tcp.step s l = some s') (hl : ¬ CopiesSlot s l) :
    Careful s l ∧ (∀ e ∈ s.sq, Own s e) ↔ ReachesOwn s l s' ∧ ∀ e ∈ s'.sq, Own s' e := by
  have h' := h.step hs hl
  have hpending : (∀ e ∈ s.sq, Own s' e) ↔
      (∀ e ∈ s.sq, Own s e) ∧ ∀ e ∈ s.sq, l.ends = some e.1 → e.2.flags = 0 := by
    rw [← forall₂_and]
    exact forall₂_congr fun e he => h.own_step h' hs (h.named e he)
  have hsq := step_sq (P := Own s') hs
  rw [ReachesOwn, and_assoc, hsq, hpending, h.careful_iff hs hl]
  tauto

/-! ## Runs -/

omit [DecidableEq ι] [DecidableEq κ] in
theorem Careful.not_copies (h : Careful s l) : ¬ CopiesSlot s l := by
  cases l with
  | copy => exact fun hne => hne h
  | copyOther => exact not_or.mpr ⟨fun hne => hne h.1, fun hne => hne h.2⟩
  | construct | read | write | close | destruct | submit | other => exact id

/-- The steps of a run, and at its end the submission of all that is
pending. -/
theorem Inv.run_iff {t : State ι κ} {as : List (Label ι κ)} (h : Inv n nullFds s)
    (hrun : (machine n nullFds).run s as = some t) :
    ((machine n nullFds).Along (fun s l _ => Careful s l) s as ∧ ∀ e ∈ s.sq, Own s e) ↔
      (machine n nullFds).Along (fun s l _ => ¬ CopiesSlot s l) s as ∧
        (machine n nullFds).Along ReachesOwn s (as ++ [.submit t.sq.length]) := by
  induction as generalizing s with
  | nil =>
    obtain rfl : s = t := Option.some.inj hrun
    have hsubmit : (machine n nullFds).step s (.submit s.sq.length) =
        some { s with sq := s.sq.drop s.sq.length } := rfl
    rw [List.nil_append, Machine.along_cons hsubmit]
    simp only [Machine.Along, ReachesOwn, prepared, submitted, List.take_length, Option.mem_def]
    constructor
    · rintro ⟨-, hown⟩
      exact ⟨trivial, ⟨fun e he => (by cases he), hown⟩, trivial⟩
    · rintro ⟨-, ⟨-, hown⟩, -⟩
      exact ⟨trivial, hown⟩
  | cons l as ih =>
    obtain ⟨u, hu, hrest⟩ := Machine.run_cons.mp hrun
    rw [List.cons_append, Machine.along_cons hu, Machine.along_cons hu, Machine.along_cons hu]
    by_cases hl : CopiesSlot s l
    · constructor
      · rintro ⟨⟨hcareful, -⟩, -⟩
        exact absurd hl hcareful.not_copies
      · rintro ⟨⟨hnot, -⟩, -⟩
        exact absurd hl hnot
    · have hstep := h.step_iff hu hl
      have hlater := ih (h.step hu hl) hrest
      tauto

end Lemmas

/-- A sequence of calls meets three conditions (no connector that had a slot
is read or written after `close`, none is closed or destroyed while an entry
that names its slot is pending, no object that has a slot is copied or
assigned to) if and only if the last of them is met and every entry that it
prepares, and every entry at the time of its submission, is the connector's
own.  What is pending at the end is submitted then. -/
theorem own_file_iff {ι κ : Type} [DecidableEq ι] [DecidableEq κ] {n : Nat} {nullFds : Int → Int}
    (as : List (Label ι κ)) (t : State ι κ)
    (hrun : (machine n nullFds).run (start n nullFds) as = some t) :
    (machine n nullFds).Along (fun s l _ => Careful s l) (start n nullFds) as ↔
      (machine n nullFds).Along (fun s l _ => ¬ CopiesSlot s l) (start n nullFds) as ∧
        (machine n nullFds).Along ReachesOwn (start n nullFds)
          (as ++ [.submit t.sq.length]) := by
  rw [← Inv.init.run_iff hrun]
  exact (and_iff_left fun e he => by cases he).symm

instance {ι κ : Type} [DecidableEq ι] [DecidableEq κ] (s : State ι κ) :
    DecidablePred (Careful s)
  | .read i _ | .write i _ =>
    inferInstanceAs (Decidable (∀ c ∈ s.conns i, ¬ (c.gotSlot = true ∧ c.closed = true)))
  | .close i _ | .destruct i => inferInstanceAs (Decidable (∀ e ∈ s.sq, e.1 = i → e.2.flags = 0))
  | .copy i _ => inferInstanceAs (Decidable (s.pool.held (.inl i) = none))
  | .copyOther i j =>
    inferInstanceAs (Decidable (s.pool.held (.inr i) = none ∧ s.pool.held (.inr j) = none))
  | .construct .. | .submit _ | .other _ => isTrue trivial

/-- A connector is read, closed and destroyed while another one stays open,
and one without a slot is copied. -/
def twoConnectors : List (Label Nat Empty) :=
  [.construct 0 10, .construct 1 11, .read 0 0, .submit 1, .close 0 0, .copy 1 2, .write 2 1,
    .destruct 0, .write 1 0]

theorem own_file_iff_two : ∃ t : State Nat Empty,
    (machine 1 fun _ => 5).run (start 1 fun _ => 5) twoConnectors = some t ∧ t.sq.length = 2 ∧
    (machine 1 fun _ => 5).Along ReachesOwn (start 1 fun _ => 5)
      (twoConnectors ++ [.submit t.sq.length]) := by
  have hrun : ((machine 1 fun _ => 5).runUnder Careful (start 1 fun _ => 5) twoConnectors).map
      (fun t => t.sq.length) = some 2 := by decide
  obtain ⟨t, ht, hlen⟩ := Option.map_eq_some_iff.mp hrun
  obtain ⟨halong, hrun⟩ := Machine.Along.of_runUnder ht
  exact ⟨t, hrun, hlen, ((own_file_iff twoConnectors t hrun).mp halong).2⟩

/-- The slot of a closed connector goes once through the queue and is then
lent to the ninth connector.  A `read` of the closed one still names it, and
so does a `read` that was prepared before `close` and is submitted now. -/
theorem stale_slot_is_lent :
    (∃ s s' : State Nat Empty, (machine FixedFds.kFixFdArraySize fun k => 100 + k).Reachable s ∧
      step s (.read 0 0) = some s' ∧ (0, ⟨.recv, 0, 1⟩) ∈ prepared s (.read 0 0) ∧
      ¬ ReachesOwn s (.read 0 0) s' ∧
      s.pool.held (.inl 8) = some 0 ∧ s.pool.uring.table 0 = 18) ∧
    ∃ s s' : State Nat Empty, (machine FixedFds.kFixFdArraySize fun k => 100 + k).Reachable s ∧
      step s (.submit 2) = some s' ∧ (0, ⟨.recv, 0, 1⟩) ∈ submitted s (.submit 2) ∧
      ¬ ReachesOwn s (.submit 2) s' ∧
      s.pool.held (.inl 8) = some 0 ∧ s.pool.uring.table 0 = 18 := by
  have hnot : ∀ s : State Nat Empty, s.pool.held (.inl 0) = none → ¬ Own s (0, ⟨.recv, 0, 1⟩) := by
    rintro s hnone ⟨c, _, ⟨hflags, _⟩ | ⟨_, hheld, _⟩⟩
    · cases hflags
    · rw [hnone] at hheld
      cases hheld
  let test (s : State Nat Empty) : Bool :=
    decide (s.pool.held (.inl 0) = none ∧ s.pool.held (.inl 8) = some 0 ∧
      s.pool.uring.table 0 = 18)
  refine ⟨?_, ?_⟩
  · obtain ⟨s, hs, htest⟩ := Machine.reachable_of_run
      (M := machine FixedFds.kFixFdArraySize fun k => 100 + k)
      (s := (start FixedFds.kFixFdArraySize fun k => 100 + k : State Nat Empty))
      (l := .construct 0 10 :: .close 0 0 :: .submit 1 ::
        (List.range 8).map fun k => .construct (k + 1) (11 + k))
      (p := fun s => test s && decide (s.live 0 = some ⟨0, 10, 1, true, true, false⟩)) rfl
      (by decide)
    obtain ⟨hpool, hlive⟩ := Bool.and_eq_true_iff.mp htest
    obtain ⟨hreturned, hlent, htable⟩ := of_decide_eq_true hpool
    have hlive := of_decide_eq_true hlive
    have hprepared : (0, ⟨.recv, 0, 1⟩) ∈ prepared s (.read 0 0) := by simp [prepared, hlive]
    refine ⟨s, s.prepare 0 0 ⟨.recv, 0, 1⟩, hs, by simp [step, hlive], hprepared, ?_, hlent, htable⟩
    exact fun hown => hnot _ hreturned (hown.1 _ hprepared)
  · obtain ⟨s, hs, htest⟩ := Machine.reachable_of_run
      (M := machine FixedFds.kFixFdArraySize fun k => 100 + k)
      (s := (start FixedFds.kFixFdArraySize fun k => 100 + k : State Nat Empty))
      (l := .construct 0 10 :: .read 0 0 :: .close 0 0 ::
        (List.range 8).map fun k => .construct (k + 1) (11 + k))
      (p := fun s => test s && decide ((0, ⟨.recv, 0, 1⟩) ∈ s.sq.take 2)) rfl (by decide)
    obtain ⟨hpool, hsq⟩ := Bool.and_eq_true_iff.mp htest
    obtain ⟨hreturned, hlent, htable⟩ := of_decide_eq_true hpool
    have hsq := of_decide_eq_true hsq
    refine ⟨s, { s with sq := s.sq.drop 2 }, hs, rfl, hsq, ?_, hlent, htable⟩
    exact fun hown => hnot _ hreturned (hown.2 _ hsq)

end SheepCoro.Tcp
