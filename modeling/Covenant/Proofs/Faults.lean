import Covenant.Proofs.Audit
import Mathlib.Tactic.SplitIfs

/-!
# What operations fail with

An operator, an access to a part and a built-in function fail only because of the values they are
applied to: the kinds are wrong, the arithmetic has no result, or an index is out of bounds. They
never blame a name, a permission, a limit, a jump or the program. A call may also fail for want of a
name or a permission, or because an implementation fails, and a limit may end a run.

## Main definitions

* `Error.ByValues` : the error is due to values.
* `FailsByValues` : a result that fails, if at all, because of values.
* `Error.Operational` : the error is one that an operation of a run may end with.
* `FailsOperationally` : a result that fails, if at all, with such an error.

## Main results

* `BinaryOp.apply_byValues`, `UnaryOp.apply_byValues`, `Value.property_byValues`,
  `Value.index_byValues`, `Builtin.apply_byValues`.
* `Run.call_operational`, `Run.charge_operational` and their companions.
-/

namespace Covenant

variable {α β : Type}

/-- The error is due to the values that something was applied to. -/
def Error.ByValues : Error → Prop
  | .type (.jumpOutsideLoop _) => False
  | .type _ | .arithmetic _ | .indexOutOfBounds _ _ => True
  | _ => False

/-- A result that fails, if at all, because of values. -/
def FailsByValues : Except Error α → Prop
  | .ok _ => True
  | .error e => e.ByValues

namespace FailsByValues

theorem bind {x : Except Error α} {f : α → Except Error β} (hx : FailsByValues x)
    (hf : ∀ a, FailsByValues (f a)) : FailsByValues (x >>= f) := by
  rcases x with e | a
  · exact hx
  · exact hf a

theorem map {x : Except Error α} (hx : FailsByValues x) (f : α → β) : FailsByValues (x.map f) := by
  rcases x with e | a <;> exact hx

end FailsByValues

/-! ### Operators and parts -/

theorem requireBoolean_byValues (context : String) (value : Value) :
    FailsByValues (requireBoolean context value) := by
  unfold requireBoolean
  split <;> trivial

namespace BinaryOp

theorem integers_byValues (op : BinaryOp) (a b : Int64) : FailsByValues (op.integers a b) := by
  unfold integers
  split_ifs
  · trivial
  · trivial
  · trivial
  · split <;> trivial

theorem numbers_byValues (op : BinaryOp) (a b : Double) : FailsByValues (op.numbers a b) := by
  cases op <;> simp only [numbers]
  all_goals first | trivial | (split_ifs <;> trivial)

theorem arithmetic_byValues (op : BinaryOp) (left right : Value) :
    FailsByValues (op.arithmetic left right) := by
  unfold arithmetic
  split
  · exact (op.integers_byValues _ _).map _
  · exact (op.numbers_byValues _ _).map _
  · trivial

theorem compare_byValues (op : BinaryOp) (left right : Value) :
    FailsByValues (op.compare left right) := by
  unfold compare
  split
  · trivial
  · trivial
  · split
    · split <;> trivial
    · trivial

theorem apply_byValues (op : BinaryOp) (left right : Value) :
    FailsByValues (op.apply left right) := by
  have hcompare (f : Ordering → Value) :
      FailsByValues (op.compare left right >>= fun o => .ok (f o)) :=
    (op.compare_byValues left right).bind fun _ => trivial
  have hlogical (f : Bool → Bool → Value) : FailsByValues (do
      let a ← requireBoolean op.symbol left
      let b ← requireBoolean op.symbol right
      .ok (f a b)) :=
    (requireBoolean_byValues _ _).bind fun _ => (requireBoolean_byValues _ _).bind fun _ => trivial
  cases op with
  | add =>
    simp only [apply, sum]
    split
    · trivial
    · trivial
    · exact arithmetic_byValues _ _ _
  | subtract | multiply | divide | modulo => exact arithmetic_byValues _ _ _
  | equal | notEqual => trivial
  | less | lessEqual | greater | greaterEqual => exact hcompare _
  | and | or => exact hlogical _

end BinaryOp

theorem UnaryOp.apply_byValues (op : UnaryOp) (operand : Value) :
    FailsByValues (op.apply operand) := by
  unfold apply
  split
  · split <;> trivial
  · trivial
  · trivial
  · trivial

namespace Value

theorem property_byValues (target : Value) (name : String) :
    FailsByValues (target.property name) := by
  unfold property
  split <;> trivial

theorem element_byValues (items : List α) (position : Int64) :
    FailsByValues (element items position) := by
  unfold element
  split_ifs
  · trivial
  · split <;> trivial

theorem index_byValues (target position : Value) : FailsByValues (target.index position) := by
  unfold index
  split
  · exact element_byValues _ _
  · exact (element_byValues _ _).map _
  · trivial
  · trivial

end Value

/-! ### Built-in functions -/

namespace Builtin

theorem unary_byValues (b : Builtin) {f : Value → Except Error Value}
    (hf : ∀ v, FailsByValues (f v)) (args : List Value) : FailsByValues (b.unary f args) := by
  unfold unary
  split
  · exact hf _
  · trivial

theorem binary_byValues (b : Builtin) {f : Value → Value → Except Error Value}
    (hf : ∀ v w, FailsByValues (f v w)) (args : List Value) : FailsByValues (b.binary f args) := by
  unfold binary
  split
  · exact hf _ _
  · trivial

theorem extreme_byValues (b : Builtin) (better : Ordering) (best : Option (Value × Double))
    (args : List Value) : FailsByValues (b.extreme better best args) := by
  induction args generalizing best with
  | nil => rcases best with _ | ⟨best, x⟩ <;> trivial
  | cons value rest ih =>
    cases hnumber : value.number? with
    | none =>
      simp only [extreme, hnumber]
      trivial
    | some x =>
      rcases best with _ | ⟨kept, y⟩ <;> simp only [extreme, hnumber]
      · exact ih _
      · split_ifs <;> exact ih _

theorem integerOf_byValues (v : Value) : FailsByValues (integerOf v) := by
  unfold integerOf
  split
  · trivial
  · split <;> trivial
  · split <;> trivial
  · trivial

theorem numberOf_byValues (v : Value) : FailsByValues (numberOf v) := by
  unfold numberOf
  split
  · trivial
  · trivial
  · split <;> trivial
  · trivial

theorem magnitude_byValues (v : Value) : FailsByValues (magnitude v) := by
  unfold magnitude
  split
  · split <;> trivial
  · trivial
  · trivial

theorem apply_byValues (clock : String) (b : Builtin) (args : List Value) :
    FailsByValues (b.apply clock args) := by
  cases b with
  | max | min => exact extreme_byValues _ _ _ _
  | print => trivial
  | now =>
    simp only [apply]
    split_ifs <;> trivial
  | contains =>
    refine binary_byValues _ (fun v w => ?_) args
    unfold holds
    split <;> trivial
  | hasKey =>
    refine binary_byValues _ (fun v w => ?_) args
    unfold objectHasKey
    split <;> trivial
  | push =>
    refine binary_byValues _ (fun v w => ?_) args
    unfold pushed
    split <;> trivial
  | abs => exact unary_byValues _ magnitude_byValues args
  | toInteger => exact unary_byValues _ integerOf_byValues args
  | toNumber => exact unary_byValues _ numberOf_byValues args
  | toText | typeOf =>
    exact unary_byValues _ (fun _ => show FailsByValues (.ok _) from trivial) args
  | keys | len | round | values =>
    refine unary_byValues _ (fun v => ?_) args
    cases v <;> trivial

end Builtin

/-! ### Operations of a run -/

/-- The error is due to values, names, permissions, implementations or limits. -/
def Error.Operational : Error → Prop
  | .notDefined _ | .permissionDenied _ _ | .hostCall _ _ _ | .exhausted _ _ | .cancelled => True
  | e => e.ByValues

theorem Error.ByValues.operational {e : Error} (h : e.ByValues) : e.Operational := by
  cases e <;> first | exact h | trivial

/-- A result that fails, if at all, with an error of an operation. -/
def FailsOperationally {τ : Type} : EStateM.Result Error τ α → Prop
  | .ok _ _ => True
  | .error e _ => e.Operational

namespace Run

variable {ι σ : Type}

theorem builtin_operational (setting : Setting ι σ) (b : Builtin) (args : List Value)
    (l : Ledger σ) : FailsOperationally (builtin setting b args l) := by
  have hfails := Builtin.apply_byValues setting.clock b args
  unfold builtin
  cases b.line? args <;> cases hresult : b.apply setting.clock args <;> rw [hresult] at hfails
  · exact hfails.operational
  · trivial
  · exact hfails.operational
  · trivial

theorem invoke_operational (setting : Setting ι σ) (name : String) (args : List Value)
    (l : Ledger σ) : FailsOperationally (invoke setting name args l) := by
  cases hname : setting.host.registry.get? name with
  | none =>
    rw [invoke_of_unknown hname]
    trivial
  | some c =>
    cases hallowed : setting.granted.allows c.permission with
    | false =>
      rw [invoke_of_denied hname hallowed]
      trivial
    | true =>
      cases hresult : (setting.host.perform c.implementation args l.host).1.result with
      | ok value =>
        rw [invoke_of_returned hname hallowed hresult]
        trivial
      | error cause =>
        rw [invoke_of_failed hname hallowed hresult]
        trivial

theorem call_operational (setting : Setting ι σ) (name : String) (args : List Value)
    (l : Ledger σ) : FailsOperationally (call setting name args l) := by
  unfold call
  cases Builtin.ofName? name with
  | some b => exact builtin_operational setting b args l
  | none =>
    dsimp only
    split_ifs
    · exact invoke_operational setting name args l
    · trivial

theorem charge_operational (limits : Limits) (l : Ledger σ) :
    FailsOperationally (charge limits l) := by
  obtain hwithin | ⟨limit, hlimit, hexceeded⟩ := within_or_exceeded limits (l.steps + 1)
  · rw [charge_of_within hwithin]
    trivial
  · rw [charge_of_exceeded hlimit hexceeded]
    trivial

theorem checkpoint_operational (limits : Limits) (l : Ledger σ) :
    FailsOperationally (checkpoint limits l) := by
  unfold checkpoint
  split_ifs
  · trivial
  · split <;> trivial

theorem checkScopeDepth_operational (limits : Limits) (depth : Nat) (l : Ledger σ) :
    FailsOperationally (checkScopeDepth limits depth l) := by
  unfold checkScopeDepth
  split_ifs <;> trivial

theorem checkExpressionDepth_operational (limits : Limits) (depth : Nat) (l : Ledger σ) :
    FailsOperationally (checkExpressionDepth limits depth l) := by
  unfold checkExpressionDepth
  split_ifs <;> trivial

end Run

end Covenant
