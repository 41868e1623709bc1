import Covenant.Proofs.Folding
import Covenant.Proofs.Jumps
import Covenant.Proofs.Placement
import Mathlib.Tactic.SplitIfs

/-!
# Jumps in loops

A script whose jumps all lie in loops, in the body or in the test of one. Parsing gives no other
scripts, and folding makes none: it takes no part of a loop out of the loop.

## Main definitions

* `Expr.JumpsEnclosed`, `Script.JumpsEnclosed` : every jump lies in a loop.

## Main results

* `Script.JumpsEnclosed.fold` : that stays so when the script is folded.
* `parse_jumpsEnclosed` : it is so for scripts that were read from a text.
-/

namespace Covenant

/-- Every jump in the expression lies in a loop. -/
inductive Expr.JumpsEnclosed : Expr → Prop
  | loop {test : Option Expr} {body : Expr} : JumpsEnclosed (.loop test body)
  | node {e : Expr} : (∀ j, e ≠ .jump j) → (∀ part ∈ e.children, JumpsEnclosed part) →
    JumpsEnclosed e

/-- Every jump in the script lies in a loop. -/
def Script.JumpsEnclosed (script : Script) : Prop :=
  ∀ s ∈ script.statements, s.expression.JumpsEnclosed

namespace Expr

theorem jumpsEnclosed_literal (value : Value) : (literal value).JumpsEnclosed :=
  .node (by simp) (by simp [children])

/-- Outside of loops, parts have no jumps either. -/
theorem JumpsEnclosed.part {e part : Expr} (h : e.JumpsEnclosed)
    (hloop : ∀ test body, e ≠ .loop test body) (hpart : part ∈ e.children) :
    part.JumpsEnclosed := by
  cases h with
  | loop => exact absurd rfl (hloop _ _)
  | node _ hparts => exact hparts part hpart

theorem not_jumpsEnclosed_jump (j : Jump) : ¬ (jump j).JumpsEnclosed := by
  intro h
  cases h with
  | node hjump _ => exact hjump j rfl

/-- The result of an operation, or the operation where it fails. -/
def ofResult (kept : Expr) : Except Error Value → Expr
  | .ok value => literal value
  | .error _ => kept

theorem ofResult_cases (kept : Expr) (r : Except Error Value) :
    ofResult kept r = kept ∨ ∃ value, ofResult kept r = literal value := by
  rcases r with e | value
  · exact .inl rfl
  · exact .inr ⟨value, rfl⟩

theorem foldBinary_cases (left : Expr) (op : BinaryOp) (right : Expr) :
    foldBinary left op right = binary left op right ∨
      ∃ value, foldBinary left op right = literal value := by
  have hboth (a b : Value) := ofResult_cases (binary left op right) (op.apply a b)
  unfold foldBinary
  rcases left.literal? with _ | a
  · exact .inl rfl
  · dsimp only
    rcases a.boolean? with _ | flag <;> rcases right.literal? with _ | b <;> dsimp only
    · exact .inl (ite_self _)
    · split_ifs
      · exact .inl rfl
      · exact hboth a b
    · split_ifs
      · exact .inr ⟨_, rfl⟩
      · exact .inl rfl
      · exact .inl rfl
    · split_ifs
      · exact .inr ⟨_, rfl⟩
      · exact hboth a b
      · exact hboth a b

/-- A reduced node is the node itself, a literal or one of the parts. -/
theorem reduce_cases (e : Expr) :
    e.reduce = e ∨ (∃ value, e.reduce = literal value) ∨ e.reduce ∈ e.children := by
  cases e with
  | binary left op right =>
    rcases foldBinary_cases left op right with h | h
    · exact .inl h
    · exact .inr (.inl h)
  | unary op operand =>
    simp only [reduce, foldUnary]
    rcases operand.literal? with _ | a
    · exact .inl rfl
    · rcases ofResult_cases (unary op operand) (op.apply a) with h | h
      · exact .inl h
      · exact .inr (.inl h)
  | cond test yes no =>
    simp only [reduce, foldCond, children]
    rcases test.flag? with _ | _ | _
    · exact .inl rfl
    · cases no <;> simp
    · simp
  | loop test body =>
    cases test with
    | none => exact .inl rfl
    | some test =>
      simp only [reduce]
      split_ifs <;> simp
  | object entries =>
    simp only [reduce, foldObject, Value.ofFields]
    cases entries.mapM (m := Option) _ <;> simp
  | array items =>
    simp only [reduce, foldArray]
    cases items.mapM literal? <;> simp
  | _ => exact .inl rfl

theorem JumpsEnclosed.reduce {e : Expr} (h : e.JumpsEnclosed) : e.reduce.JumpsEnclosed := by
  cases h with
  | @loop test body =>
    cases test with
    | none => exact .loop
    | some test =>
      simp only [Expr.reduce]
      split_ifs
      · exact jumpsEnclosed_literal _
      · exact .loop
  | node hjump hparts =>
    rcases e.reduce_cases with heq | ⟨value, heq⟩ | hpart
    · rw [heq]
      exact .node hjump hparts
    · rw [heq]
      exact jumpsEnclosed_literal value
    · exact hparts _ hpart

/-- Folding takes no jump out of its loop. -/
theorem JumpsEnclosed.fold {e : Expr} (h : e.JumpsEnclosed) : e.fold.JumpsEnclosed := by
  induction h with
  | loop =>
    rw [fold_eq]
    exact JumpsEnclosed.reduce .loop
  | @node e hjump _ ih =>
    rw [fold_eq]
    refine JumpsEnclosed.reduce (.node (fun j hj => ?_) fun part hpart => ?_)
    · cases e <;> cases hj
      exact hjump j rfl
    · rw [children_mapParts, List.mem_map] at hpart
      obtain ⟨part, hmem, rfl⟩ := hpart
      exact ih part hmem

end Expr

theorem Script.JumpsEnclosed.fold {script : Script} (h : script.JumpsEnclosed) :
    script.fold.JumpsEnclosed := by
  intro s hs
  obtain ⟨s, hmem, rfl⟩ := List.mem_map.mp hs
  exact (h s hmem).fold

/-- Where jumps stand only inside of loops, they are enclosed. -/
theorem Placed.jumpsEnclosed {b : Bool} {e : Expr} (h : Placed b e) (hb : b = false) :
    e.JumpsEnclosed := by
  induction h with
  | loop _ _ _ _ => exact .loop
  | jump => cases hb
  | literal => exact Expr.jumpsEnclosed_literal _
  | ref => exact .node (by simp) (by simp [Expr.children])
  | binary _ _ ihLeft ihRight | index _ _ ihLeft ihRight =>
    exact .node (by simp) (by simp [Expr.children, ihLeft hb, ihRight hb])
  | unary _ ih | assign _ ih | property _ ih =>
    exact .node (by simp) (by simp [Expr.children, ih hb])
  | call _ ih | array _ ih => exact .node (by simp) fun part hpart => ih part hpart hb
  | object _ ih =>
    refine .node (by simp) ?_
    simp only [Expr.children, List.forall_mem_map]
    exact fun entry hentry => ih entry hentry hb
  | cond _ _ _ ihTest ihYes ihNo =>
    refine .node (by simp) ?_
    simp only [Expr.children, List.mem_cons, Option.mem_toList]
    rintro part (rfl | rfl | hpart)
    · exact ihTest hb
    · exact ihYes hb
    · exact ihNo part hpart hb
  | block _ ih =>
    refine .node (by simp) fun part hpart => ?_
    have hpayload := ih part hpart hb
    cases part with
    | declare name value =>
      have hvalue : value.JumpsEnclosed := hpayload
      exact .node (by simp) (by simpa [Expr.children] using hvalue)
    | _ => exact hpayload

/-- In a script that was read from a text, every jump lies in a loop. -/
theorem parse_jumpsEnclosed {name source : String} {script : Script}
    (h : parse name source = .ok script) : script.JumpsEnclosed := by
  intro s hs
  have hblock : Placed false (.block [s.expression]) :=
    .block (by simpa using parse_placed h s hs)
  exact (hblock.jumpsEnclosed rfl).part (by simp) (by simp [Expr.children])

end Covenant
