import Mathlib.Data.List.Basic

/-!
# The two containers

`include/coro/detail/container.hpp` has two class templates for the result of
a coroutine: one with a `std::variant` for any type, and one with a union and
a state for a `pod_type`.  A promise calls `return_value` or, from
`unhandled_exception`, `set_exception`, and whoever awaits it calls
`result`.  `contract` is what both are for: the last call decides.

The members of the union are used by the rules of C++.  A `pod_type` has a
trivial assignment, which makes the assigned member the active one whatever
was active before.  The assignment of `std::exception_ptr` is a call of an
operator, which needs the member to be active.  `sound` is the history of
these uses; after a use that is not allowed the model goes on as if the
member had been active.
-/

namespace SheepCoro.Container

variable {T E : Type}

/-- A call that stores something. -/
inductive Call (T E : Type)
  | returnValue (value : T)
  /-- With the exception that `std::current_exception` returns. -/
  | setException (e : E)

def Call.isValue : Call T E → Bool
  | .returnValue _ => true
  | .setException _ => false

/-- What the caller of `result` observes. -/
inductive Outcome (T E : Type)
  | returned (value : T)
  | thrown (e : E)
  /-- An exception has left a `noexcept` function. -/
  | terminated
  /-- A member of the union has been read that is not active. -/
  | undefined
deriving DecidableEq

/-- The last call decides; without one, `result` throws the error that nothing
was ever set. -/
def contract (unset : E) (calls : List (Call T E)) : Outcome T E :=
  match calls.getLast? with
  | none => .thrown unset
  | some (.returnValue value) => .returned value
  | some (.setException e) => .thrown e

/-! ## The general container -/

/-- `variant_type`. -/
inductive Variant (T E : Type)
  | unsetReturnValue
  | stored (value : T)
  | exceptionPtr (e : E)

namespace Variant

/-- `emplace`, or a new variant in the place of the old one. -/
def call (_ : Variant T E) : Call T E → Variant T E
  | .returnValue value => .stored value
  | .setException e => .exceptionPtr e

def result (unset : E) : Variant T E → Outcome T E
  | .stored value => .returned value
  | .exceptionPtr e => .thrown e
  | .unsetReturnValue => .thrown unset

/-- `result` after some calls on a new container. -/
def outcome (unset : E) (calls : List (Call T E)) : Outcome T E :=
  result unset (calls.foldl call .unsetReturnValue)

/-- The general container keeps the contract. -/
theorem outcome_eq (unset : E) (calls : List (Call T E)) :
    outcome unset calls = contract unset calls := by
  rcases calls.eq_nil_or_concat' with rfl | ⟨earlier, c, rfl⟩
  · rfl
  · unfold outcome contract
    rw [List.foldl_concat, List.getLast?_concat]
    cases c <;> rfl

end Variant

/-! ## The container of a `pod_type` -/

/-- The union, by its active member. -/
inductive Storage (T E : Type)
  | none
  | value (v : T)
  | exceptionPtr (e : E)

def Storage.isExceptionPtr : Storage T E → Bool
  | .exceptionPtr _ => true
  | _ => false

inductive ValueState
  | none
  | value
  | exception
deriving DecidableEq

structure Pod (T E : Type) where
  storage : Storage T E
  state : ValueState
  sound : Bool

namespace Pod

def new : Pod T E := ⟨.none, .none, true⟩

def call (p : Pod T E) : Call T E → Pod T E
  | .returnValue value => ⟨.value value, .value, p.sound⟩
  | .setException e => ⟨.exceptionPtr e, .exception, p.sound && p.storage.isExceptionPtr⟩

/-- What leaves a `noexcept` function. -/
def noexcept : Outcome T E → Outcome T E
  | .thrown _ => .terminated
  | o => o

def result [Inhabited T] (p : Pod T E) : Outcome T E :=
  noexcept <|
    match p.state with
    | .value =>
      match p.storage with
      | .value value => .returned value
      | _ => .undefined
    | .exception =>
      match p.storage with
      | .exceptionPtr e => .thrown e
      | _ => .undefined
    | .none => .returned default

def outcome [Inhabited T] (calls : List (Call T E)) : Outcome T E :=
  (calls.foldl call new).result

variable {p : Pod T E} {c : Call T E} {calls : List (Call T E)}

@[simp] theorem call_returnValue (value : T) :
    p.call (.returnValue value) = ⟨.value value, .value, p.sound⟩ := rfl

@[simp] theorem call_setException (e : E) :
    p.call (.setException e) =
      ⟨.exceptionPtr e, .exception, p.sound && p.storage.isExceptionPtr⟩ := rfl

/-- A use that is not allowed is not made up for. -/
theorem foldl_unsound (h : p.sound = false) : (calls.foldl call p).sound = false := by
  induction calls generalizing p with
  | nil => exact h
  | cons c calls ih =>
    apply ih
    cases c <;> simp [h]

/-- The member for exceptions never becomes active, so every
`set_exception` is a use that is not allowed. -/
theorem foldl_sound (h : p.storage.isExceptionPtr = false) :
    (calls.foldl call p).sound = true ↔ p.sound = true ∧ ∀ c ∈ calls, c.isValue = true := by
  induction calls generalizing p with
  | nil => simp
  | cons c calls ih =>
    rw [List.foldl_cons, List.forall_mem_cons]
    cases c with
    | returnValue value =>
      have hnext : (p.call (.returnValue value)).storage.isExceptionPtr = false := rfl
      rw [ih hnext]
      simp [Call.isValue]
    | setException e =>
      have hbad : (p.call (.setException e)).sound = false := by simp [h]
      rw [foldl_unsound hbad]
      simp [Call.isValue]

theorem outcome_nil [Inhabited T] : outcome ([] : List (Call T E)) = .returned default := rfl

/-- `result` never throws, so a stored exception ends the process. -/
theorem outcome_concat [Inhabited T] :
    outcome (calls ++ [c]) =
      match c with
      | .returnValue value => .returned value
      | .setException _ => .terminated := by
  unfold outcome
  rw [List.foldl_concat]
  cases c <;> rfl

/-- The outcomes agree when the last call stores a value, and not otherwise. -/
theorem outcome_eq_iff [Inhabited T] (unset : E) :
    outcome calls = Variant.outcome unset calls ↔ ∃ v, calls.getLast? = some (.returnValue v) := by
  rw [Variant.outcome_eq]
  unfold contract
  rcases calls.eq_nil_or_concat' with rfl | ⟨earlier, c, rfl⟩
  · simp [outcome_nil]
  · rw [outcome_concat, List.getLast?_concat]
    cases c with
    | returnValue value => simp
    | setException e => simp

end Pod

/-! ## Chains of awaiting coroutines -/

/-- What is observed at the end of a chain.  Each coroutine awaits the one
before and passes on what it gets: a value by `return_value`, an exception by
`unhandled_exception`. -/
def delivered (outcome : List (Call T E) → Outcome T E) (calls : List (Call T E)) :
    Nat → Outcome T E
  | 0 => outcome calls
  | n + 1 =>
    match delivered outcome calls n with
    | .returned value => outcome [.returnValue value]
    | .thrown e => outcome [.setException e]
    | o => o

/-- The general container passes everything on. -/
theorem delivered_variant (unset : E) (calls : List (Call T E)) (n : Nat) :
    delivered (Variant.outcome unset) calls n = Variant.outcome unset calls := by
  induction n with
  | zero => rfl
  | succ n ih =>
    unfold delivered
    rw [ih]
    cases h : Variant.outcome unset calls <;> rfl

/-- A value passes through any chain. -/
theorem delivered_pod [Inhabited T] {calls : List (Call T E)} {v : T}
    (h : Pod.outcome calls = .returned v) (n : Nat) :
    delivered Pod.outcome calls n = .returned v := by
  induction n with
  | zero => exact h
  | succ n ih =>
    unfold delivered
    rw [ih]
    rfl

/-- The container of a `pod_type` is as good as the general one: the same is
observed at the end of every chain, and the union is used as it may be. -/
def Agrees [Inhabited T] (unset : E) (calls : List (Call T E)) : Prop :=
  (∀ n, delivered Pod.outcome calls n = delivered (Variant.outcome unset) calls n) ∧
    (calls.foldl Pod.call Pod.new).sound = true

/-- The two agree on the calls that store a value, at least one, and never an
exception. -/
theorem agrees_iff [Inhabited T] (unset : E) (calls : List (Call T E)) :
    Agrees unset calls ↔ calls ≠ [] ∧ ∀ c ∈ calls, c.isValue = true := by
  have hsound : (calls.foldl Pod.call Pod.new).sound = true ↔ _ ∧ ∀ c ∈ calls, c.isValue = true :=
    Pod.foldl_sound rfl
  constructor
  · rintro ⟨hsame, huses⟩
    refine ⟨?_, (hsound.mp huses).2⟩
    rintro rfl
    cases hsame 0
  · rintro ⟨hne, hvalues⟩
    refine ⟨fun n => ?_, hsound.mpr ⟨rfl, hvalues⟩⟩
    obtain ⟨v, hlast⟩ : ∃ v, calls.getLast? = some (.returnValue v) := by
      have hmem := List.getLast_mem hne
      rw [List.getLast?_eq_some_getLast hne]
      cases hc : calls.getLast hne with
      | returnValue v => exact ⟨v, rfl⟩
      | setException e =>
        rw [hc] at hmem
        cases hvalues _ hmem
    have heq := (Pod.outcome_eq_iff unset).mpr ⟨v, hlast⟩
    have hvalue : Variant.outcome unset calls = .returned v := by
      rw [Variant.outcome_eq, contract, hlast]
    rw [delivered_variant, delivered_pod (heq.trans hvalue), hvalue]

/-- A task that lets an exception through: the general container delivers it,
the other one ends the process. -/
theorem exception_terminates :
    Variant.outcome "unset" [Call.setException (T := Nat) "error"] = .thrown "error" ∧
      Pod.outcome [Call.setException (T := Nat) "error"] = .terminated ∧
      ¬ Agrees "unset" [Call.setException (T := Nat) "error"] := by
  refine ⟨rfl, rfl, ?_⟩
  rintro ⟨hsame, _⟩
  cases hsame 0

end SheepCoro.Container
