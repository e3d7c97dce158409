import Mathlib

/-!
# Timers

The class `timer` of `include/coro/timer.hpp`.  A chain of `add_*` calls adds
to the two fields of a `__kernel_timespec`, and `co_await` prepares a timeout
with it.

The constructor sets `m_flag` only, so a new timer has in `m_ts` what was in
its storage before; `new` takes that as an argument.  An addition to a field
is made with unsigned numbers and converted back, so it wraps.

The second half is the timeout on the ring, as the kernel documents it: it
ends when its time has passed, or with a count `k > 0`, once `k` other
completions have been posted.
-/

namespace SheepCoro.Time

/-- `__kernel_timespec`. -/
structure Timespec where
  tvSec : Int64
  tvNsec : Int64
deriving DecidableEq

structure Timer where
  ts : Timespec
  flag : UInt32
deriving DecidableEq

/-- `timer(flag)` in storage that holds `memory`. -/
def new (memory : Timespec) (flag : UInt32) : Timer := ⟨memory, flag⟩

/-- `field += n` of a signed field and an unsigned number. -/
def addUnsigned (field : Int64) (n : UInt64) : Int64 := (field.toUInt64 + n).toInt64

def addSeconds (t : Timer) (seconds : UInt64) : Timer :=
  { t with ts := { t.ts with tvSec := addUnsigned t.ts.tvSec seconds } }

/-- The three other calls scale their argument and add it here. -/
def addNsec (t : Timer) (n : UInt64) : Timer :=
  { t with ts := { t.ts with tvNsec := addUnsigned t.ts.tvNsec n } }

def addMseconds (t : Timer) (mseconds : UInt64) : Timer := addNsec t (1000000 * mseconds)

def addUseconds (t : Timer) (useconds : UInt64) : Timer := addNsec t (1000 * useconds)

def addNseconds (t : Timer) (nseconds : UInt64) : Timer := addNsec t nseconds

/-- The request that `io_uring_prep_timeout` fills in. -/
structure Timeout where
  ts : Timespec
  count : Nat
  flags : UInt32
deriving DecidableEq

/-- `timer_awaiter(ts, count, flags)`. -/
def timerAwaiter (ts : Timespec) (count : Nat) (flags : UInt32) : Timeout := ⟨ts, count, flags⟩

/-- `operator co_await`. -/
def coAwait (t : Timer) : Timeout := timerAwaiter t.ts 1 0

/-! ## Durations -/

inductive Call
  | addSeconds (seconds : UInt64)
  | addMseconds (mseconds : UInt64)
  | addUseconds (useconds : UInt64)
  | addNseconds (nseconds : UInt64)
deriving DecidableEq

def call (t : Timer) : Call → Timer
  | .addSeconds seconds => addSeconds t seconds
  | .addMseconds mseconds => addMseconds t mseconds
  | .addUseconds useconds => addUseconds t useconds
  | .addNseconds nseconds => addNseconds t nseconds

/-- A new timer after a chain of calls. -/
def chain (memory : Timespec) (flag : UInt32) (calls : List Call) : Timer :=
  calls.foldl call (new memory flag)

/-- The seconds that a call asks for. -/
def Call.seconds : Call → Nat
  | .addSeconds seconds => seconds.toNat
  | _ => 0

/-- The nanoseconds that a call in a smaller unit asks for. -/
def Call.fraction : Call → Nat
  | .addSeconds _ => 0
  | .addMseconds mseconds => 1000000 * mseconds.toNat
  | .addUseconds useconds => 1000 * useconds.toNat
  | .addNseconds nseconds => nseconds.toNat

def seconds (calls : List Call) : Nat := (calls.map Call.seconds).sum

def fraction (calls : List Call) : Nat := (calls.map Call.fraction).sum

/-- The exact sum of a chain, in nanoseconds. -/
def total (calls : List Call) : Nat := seconds calls * 10 ^ 9 + fraction calls

/-- The timespec is the normal form of a number of nanoseconds. -/
def Exact (ts : Timespec) (nanoseconds : Nat) : Prop :=
  ts.tvSec.toInt * 10 ^ 9 + ts.tvNsec.toInt = nanoseconds ∧
    0 ≤ ts.tvNsec.toInt ∧ ts.tvNsec.toInt < 10 ^ 9

instance (ts : Timespec) (nanoseconds : Nat) : Decidable (Exact ts nanoseconds) :=
  inferInstanceAs (Decidable (_ ∧ _ ∧ _))

theorem toInt_addUnsigned (field : Int64) (n : UInt64) :
    (addUnsigned field n).toInt % 2 ^ 64 = (field.toInt + n.toNat) % 2 ^ 64 := by
  have hsum : (addUnsigned field n).toInt =
      (field.toInt + n.toBitVec.toInt).bmod (2 ^ 64) := BitVec.toInt_add ..
  have hn : n.toBitVec.toInt % 2 ^ 64 = n.toNat % 2 ^ 64 := by
    rw [BitVec.toInt_eq_toNat_bmod]
    exact Int.bmod_emod
  have hmod : (addUnsigned field n).toInt % 2 ^ 64 =
      (field.toInt + n.toBitVec.toInt) % 2 ^ 64 := by
    rw [hsum]
    exact Int.bmod_emod
  rw [hmod]
  omega

/-- What one call adds to each of the fields, up to wrapping. -/
theorem call_fields (t : Timer) (c : Call) :
    (call t c).ts.tvSec.toInt % 2 ^ 64 = (t.ts.tvSec.toInt + c.seconds) % 2 ^ 64 ∧
      (call t c).ts.tvNsec.toInt % 2 ^ 64 = (t.ts.tvNsec.toInt + c.fraction) % 2 ^ 64 := by
  have hscale : ∀ k m : UInt64,
      (addNsec t (k * m)).ts.tvNsec.toInt % 2 ^ 64 =
        (t.ts.tvNsec.toInt + (k.toNat * m.toNat : Nat)) % 2 ^ 64 := by
    intro k m
    have hadd := toInt_addUnsigned t.ts.tvNsec (k * m)
    rw [UInt64.toNat_mul] at hadd
    show (addUnsigned t.ts.tvNsec (k * m)).toInt % 2 ^ 64 = _
    omega
  have hkeep : ∀ x : Int, x % 2 ^ 64 = (x + (0 : Nat)) % 2 ^ 64 := by
    intro x
    omega
  cases c with
  | addSeconds n => exact ⟨toInt_addUnsigned t.ts.tvSec n, hkeep _⟩
  | addMseconds n => exact ⟨hkeep _, hscale 1000000 n⟩
  | addUseconds n => exact ⟨hkeep _, hscale 1000 n⟩
  | addNseconds n => exact ⟨hkeep _, toInt_addUnsigned t.ts.tvNsec n⟩

/-- The same for a chain. -/
theorem calls_fields (t : Timer) (calls : List Call) :
    (calls.foldl call t).ts.tvSec.toInt % 2 ^ 64 =
        (t.ts.tvSec.toInt + seconds calls) % 2 ^ 64 ∧
      (calls.foldl call t).ts.tvNsec.toInt % 2 ^ 64 =
        (t.ts.tvNsec.toInt + fraction calls) % 2 ^ 64 := by
  induction calls generalizing t with
  | nil => simp [seconds, fraction]
  | cons c calls ih =>
    obtain ⟨hsec, hnsec⟩ := ih (call t c)
    obtain ⟨hsec', hnsec'⟩ := call_fields t c
    have hseconds : seconds (c :: calls) = c.seconds + seconds calls := List.sum_cons
    have hfraction : fraction (c :: calls) = c.fraction + fraction calls := List.sum_cons
    rw [List.foldl_cons, hseconds, hfraction]
    constructor
    · omega
    · omega

/-- The timespec that is handed on is right when the storage of the timer
made up for the missing carry: when it held, in seconds, what the smaller units
add up to in whole seconds, and in nanoseconds, the same with the other sign.
For storage of zeros this says that the smaller units stay below one second. -/
theorem timespec_exact_iff (memory : Timespec) (flag : UInt32) (calls : List Call)
    (hrep : total calls / 10 ^ 9 < 2 ^ 63) :
    Exact (coAwait (chain memory flag calls)).ts (total calls) ↔
      memory.tvSec.toInt = fraction calls / 10 ^ 9 ∧
        (memory.tvNsec.toInt + fraction calls / 10 ^ 9 * 10 ^ 9) % 2 ^ 64 = 0 := by
  obtain ⟨hsec, hnsec⟩ := calls_fields (new memory flag) calls
  have hs := (chain memory flag calls).ts.tvSec.toInt_lt
  have hs' := (chain memory flag calls).ts.tvSec.le_toInt
  have hn := (chain memory flag calls).ts.tvNsec.toInt_lt
  have hn' := (chain memory flag calls).ts.tvNsec.le_toInt
  have hm := memory.tvSec.toInt_lt
  have hm' := memory.tvSec.le_toInt
  unfold Exact
  unfold total at hrep ⊢
  simp only [coAwait, timerAwaiter, chain, new] at *
  constructor
  · rintro ⟨hsum, hlow, hhigh⟩
    constructor
    · omega
    · omega
  · rintro ⟨hzero, hzero'⟩
    refine ⟨?_, ?_, ?_⟩
    · omega
    · omega
    · omega

/-- Two seconds and a half in storage of zeros. -/
theorem timespec_exact_zeroed :
    total [.addSeconds 2, .addMseconds 500] / 10 ^ 9 < 2 ^ 63 ∧
      Exact (coAwait (chain ⟨0, 0⟩ 0 [.addSeconds 2, .addMseconds 500])).ts
        2500000000 :=
  ⟨by decide, (timespec_exact_iff ⟨0, 0⟩ 0 [.addSeconds 2, .addMseconds 500] (by decide)).mpr
    (by decide)⟩

/-- A second and a half in milliseconds is not a timespec, and two seconds in
storage that held a seven are nine. -/
theorem timespec_not_exact :
    total [.addMseconds 1500] / 10 ^ 9 < 2 ^ 63 ∧ total [.addSeconds 2] / 10 ^ 9 < 2 ^ 63 ∧
      coAwait (chain ⟨0, 0⟩ 0 [.addMseconds 1500]) = ⟨⟨0, 1500000000⟩, 1, 0⟩ ∧
      ¬ Exact (coAwait (chain ⟨0, 0⟩ 0 [.addMseconds 1500])).ts
        (total [.addMseconds 1500]) ∧
      coAwait (chain ⟨7, 0⟩ 0 [.addSeconds 2]) = ⟨⟨9, 0⟩, 1, 0⟩ ∧
      ¬ Exact (coAwait (chain ⟨7, 0⟩ 0 [.addSeconds 2])).ts
        (total [.addSeconds 2]) := by
  decide

/-! ## The timeout on the ring -/

/-- `timeout_abs`. -/
def timeoutAbs : UInt32 := 1

def etime : Int := 62

/-- When the time of a timespec with these flags has passed, for a timeout issued at
`start`.  The other flags select a clock or the result. -/
def deadline (ts : Timespec) (flags : UInt32) (start : Int) : Int :=
  let wait := ts.tvSec.toInt * 10 ^ 9 + ts.tvNsec.toInt
  if flags &&& timeoutAbs ≠ 0 then wait else start + wait

/-- What happens on the ring while the timeout is there. -/
inductive Event
  /-- Some nanoseconds pass. -/
  | tick (ns : Nat)
  /-- A completion of another operation is posted. -/
  | post
deriving DecidableEq

structure Completion where
  time : Int
  res : Int
deriving DecidableEq

/-- Whether a timeout ends now. -/
def Timeout.ended (q : Timeout) (expiry now : Int) (posted : Nat) : Option Completion :=
  if expiry ≤ now then some ⟨now, -etime⟩
  else if 0 < q.count ∧ q.count ≤ posted then some ⟨now, 0⟩
  else none

/-- How a timeout ends whose time has passed at `expiry`. -/
def Timeout.completion (q : Timeout) (expiry : Int) : Int → Nat → List Event → Option Completion
  | now, posted, [] => q.ended expiry now posted
  | now, posted, .tick ns :: events =>
    (q.ended expiry now posted).or (q.completion expiry (now + ns) posted events)
  | now, posted, .post :: events =>
    (q.ended expiry now posted).or (q.completion expiry now (posted + 1) events)

/-- How a timeout ends that is issued at `start`. -/
def Timeout.issue (q : Timeout) (start : Int) (events : List Event) : Option Completion :=
  q.completion (deadline q.ts q.flags start) start 0 events

/-- `timer_awaiter::callback`, the result that is stored. -/
def callback (res : Int) : Int := if res = -etime then 0 else res

/-- The completions of others that are posted before `expiry`. -/
def postsBefore (expiry now : Int) : List Event → Nat
  | [] => 0
  | .tick ns :: events => postsBefore expiry (now + ns) events
  | .post :: events => postsBefore expiry now events + if now < expiry then 1 else 0

variable {q : Timeout} {expiry now : Int} {posted : Nat} {events : List Event} {c : Completion}

/-- The coroutine that waits is not told how the timeout ended. -/
theorem callback_ended (h : q.ended expiry now posted = some c) : callback c.res = 0 := by
  unfold Timeout.ended at h
  split_ifs at h
  · cases h
    rfl
  · cases h
    rfl

theorem callback_completion (h : q.completion expiry now posted events = some c) :
    callback c.res = 0 := by
  induction events generalizing now posted with
  | nil => exact callback_ended h
  | cons e events ih =>
    cases e with
    | tick ns =>
      rcases Option.or_eq_some_iff.mp h with hnow | ⟨_, hlater⟩
      · exact callback_ended hnow
      · exact ih hlater
    | post =>
      rcases Option.or_eq_some_iff.mp h with hnow | ⟨_, hlater⟩
      · exact callback_ended hnow
      · exact ih hlater

/-- A timeout ends before its time at once, when enough has been posted, or
later. -/
theorem ended_or_early (q : Timeout) (expiry now : Int) (posted : Nat)
    (later : Option Completion) :
    (∃ c, (q.ended expiry now posted).or later = some c ∧ c.time < expiry) ↔
      now < expiry ∧
        (0 < q.count ∧ q.count ≤ posted ∨ ∃ c, later = some c ∧ c.time < expiry) := by
  unfold Timeout.ended
  split_ifs with hexpiry hposted
  · simp only [Option.some_or, Option.some.injEq, exists_eq_left']
    omega
  · simp only [Option.some_or, Option.some.injEq, exists_eq_left']
    exact ⟨fun h => ⟨h, .inl hposted⟩, fun h => h.1⟩
  · rw [Option.none_or]
    exact ⟨fun h => ⟨by omega, .inr h⟩, fun h => h.2.resolve_left hposted⟩

/-- Nothing is early once the time has come. -/
theorem postsBefore_of_le (events : List Event) (h : expiry ≤ now) :
    postsBefore expiry now events = 0 := by
  induction events generalizing now with
  | nil => rfl
  | cons e events ih =>
    cases e with
    | tick ns => exact ih (by omega)
    | post =>
      show postsBefore expiry now events + (if now < expiry then 1 else 0) = 0
      rw [ih h, if_neg (by omega)]

/-- A timeout ends early when it counts completions and enough are posted. -/
theorem early_iff (q : Timeout) (expiry now : Int) (posted : Nat) (events : List Event) :
    (∃ c, q.completion expiry now posted events = some c ∧ c.time < expiry) ↔
      now < expiry ∧ 0 < q.count ∧ q.count ≤ posted + postsBefore expiry now events := by
  induction events generalizing now posted with
  | nil =>
    have h := ended_or_early q expiry now posted none
    rw [Option.or_none] at h
    simpa [Timeout.completion, postsBefore] using h
  | cons e events ih =>
    cases e with
    | tick ns =>
      unfold Timeout.completion
      rw [ended_or_early, ih]
      have hnone : expiry ≤ now + ns → _ := postsBefore_of_le events
      show _ ↔ now < expiry ∧ 0 < q.count ∧ q.count ≤ posted + postsBefore expiry (now + ns) events
      omega
    | post =>
      unfold Timeout.completion
      rw [ended_or_early, ih]
      show _ ↔ now < expiry ∧ 0 < q.count ∧
        q.count ≤ posted + (postsBefore expiry now events + if now < expiry then 1 else 0)
      split_ifs
      · omega
      · omega

/-- Nobody is told early, or the first completion of another is early enough. -/
theorem not_early_iff (q : Timeout) (expiry start : Int) (events : List Event)
    (hcount : q.count = 1) :
    (∀ c, q.completion expiry start 0 events = some c → expiry ≤ c.time) ↔
      postsBefore expiry start events = 0 := by
  have hearly := early_iff q expiry start 0 events
  have hnone : expiry ≤ start → _ := postsBefore_of_le events
  constructor
  · intro h
    have hnot : ¬ ∃ c, q.completion expiry start 0 events = some c ∧ c.time < expiry := by
      rintro ⟨c, hc, hlt⟩
      exact absurd (h c hc) (by omega)
    rw [hearly] at hnot
    omega
  · intro h c hc
    by_contra hlt
    obtain ⟨_, _, hposts⟩ := hearly.mp ⟨c, hc, by omega⟩
    omega

/-- The timeout of a timer carries its flag, and does not end before the time
that the timer stands for. -/
def OwnExpiry (t : Timer) (start : Int) (events : List Event) : Prop :=
  (coAwait t).flags = t.flag ∧
    ∀ c, (coAwait t).issue start events = some c → deadline t.ts t.flag start ≤ c.time

theorem chain_flag (memory : Timespec) (flag : UInt32) (calls : List Call) :
    (chain memory flag calls).flag = flag := by
  have hcall : ∀ t c, (call t c).flag = t.flag := by
    intro t c
    cases c <;> rfl
  have hcalls : ∀ t, (calls.foldl call t).flag = t.flag := by
    induction calls with
    | nil => exact fun t => rfl
    | cons c calls ih => exact fun t => (ih (call t c)).trans (hcall t c)
  exact hcalls (new memory flag)

/-- A timer ends by its own expiry when its flag is zero and no other completion
is posted before its time.  The coroutine is told the same in any case. -/
theorem ownExpiry_iff (memory : Timespec) (flag : UInt32) (calls : List Call) (start : Int)
    (events : List Event) :
    (OwnExpiry (chain memory flag calls) start events ↔
      flag = 0 ∧
        postsBefore (deadline (chain memory flag calls).ts 0 start) start events = 0) ∧
    ∀ c, (coAwait (chain memory flag calls)).issue start events = some c →
      callback c.res = 0 := by
  refine ⟨?_, fun c hc => callback_completion hc⟩
  have hflags : (coAwait (chain memory flag calls)).flags = 0 := rfl
  unfold OwnExpiry
  rw [hflags, chain_flag, eq_comm (a := 0)]
  apply and_congr_right
  intro hflag
  subst hflag
  exact not_early_iff (coAwait (chain memory 0 calls)) _ start events rfl

/-- An absolute timer is prepared as a relative one, and a timer of ten seconds
ends after one second when another operation completes there. -/
theorem not_ownExpiry :
    ¬ OwnExpiry (chain ⟨0, 0⟩ timeoutAbs [.addSeconds 10]) 0 [] ∧
      (coAwait (chain ⟨0, 0⟩ 0 [.addSeconds 10])).issue 0 [.tick 1000000000, .post] =
        some ⟨1000000000, 0⟩ ∧
      ¬ OwnExpiry (chain ⟨0, 0⟩ 0 [.addSeconds 10]) 0 [.tick 1000000000, .post] := by
  have hend : (coAwait (chain ⟨0, 0⟩ 0 [.addSeconds 10])).issue 0 [.tick 1000000000, .post] =
      some ⟨1000000000, 0⟩ := by decide
  refine ⟨?_, hend, ?_⟩
  · rintro ⟨hflags, _⟩
    exact absurd hflags (by decide)
  · rintro ⟨_, hlate⟩
    exact absurd (hlate _ hend) (by decide)

end SheepCoro.Time
