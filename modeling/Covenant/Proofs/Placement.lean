import Covenant.Proofs.Grammar

/-!
# Where declarations and jumps stand

In a script that was read from a text, a declaration is an item of a block or a statement, never
part of a larger expression, and a jump lies in the body of a loop or in the test of a loop inside
one. This is the part of the shape of scripts that compilation relies on.

## Main definitions

* `Placed` : an expression in which declarations and jumps stand where they may.

## Main results

* `parse_placed` : every statement of a script that was read is placed.
-/

namespace Covenant

/-- Declarations are items of blocks, and jumps are inside loops. The flag says whether the
expression is inside one; an expression that is a declaration itself has no place. -/
inductive Placed : Bool → Expr → Prop
  | literal {b value} : Placed b (.literal value)
  | ref {b name} : Placed b (.ref name)
  | binary {b left op right} : Placed b left → Placed b right → Placed b (.binary left op right)
  | unary {b op operand} : Placed b operand → Placed b (.unary op operand)
  | call {b name args} : (∀ e ∈ args, Placed b e) → Placed b (.call name args)
  | block {b items} : (∀ e ∈ items, Placed b e.payload) → Placed b (.block items)
  | cond {b test yes no} : Placed b test → Placed b yes → (∀ e ∈ no, Placed b e) →
    Placed b (.cond test yes no)
  | loop {b test body} : (∀ e ∈ test, Placed b e) → Placed true body → Placed b (.loop test body)
  | assign {b target value} : Placed b value → Placed b (.assign target value)
  | object {b entries} : (∀ entry ∈ entries, Placed b entry.2) → Placed b (.object entries)
  | array {b items} : (∀ e ∈ items, Placed b e) → Placed b (.array items)
  | property {b target name} : Placed b target → Placed b (.property target name)
  | index {b target position} : Placed b target → Placed b position →
    Placed b (.index target position)
  | jump {j} : Placed true (.jump j)

theorem Shaped.placed {b : Bool} {e : Expr} (h : Shaped b e) : Placed b e := by
  induction h with
  | literal => exact .literal
  | ref => exact .ref
  | binary _ _ ihLeft ihRight => exact .binary ihLeft ihRight
  | unary _ ih => exact .unary ih
  | call _ ih => exact .call ih
  | block _ ih => exact .block ih
  | cond _ _ _ _ _ ihTest ihYes ihNo => exact .cond ihTest ihYes ihNo
  | loop _ _ _ ihTest ihBody => exact .loop ihTest ihBody
  | assign _ ih => exact .assign ih
  | object _ _ ih => exact .object ih
  | array _ ih => exact .array ih
  | property _ ih => exact .property ih
  | index _ _ ihTarget ihPosition => exact .index ihTarget ihPosition
  | jump => exact .jump

/-- Every statement of a script that was read from a text is placed outside all loops. -/
theorem parse_placed {name source : String} {script : Script}
    (h : parse name source = .ok script) :
    ∀ s ∈ script.statements, Placed false s.expression.payload :=
  fun s hs => (parse_shaped h s hs).placed

end Covenant
