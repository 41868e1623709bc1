import Covenant.Proofs.Expression

/-!
# Trees of operations

A tree of operations is read from left to right as its operands with the operators between them.
Many trees are read alike. Among these at most one is grouped: operators of a tighter group stand
below those of a looser one, and operators of one group associate to the left.

## Main definitions

* `Expr.inOrder` : the operands from left to right and the operators between them.
* `Expr.Grouped` : operations stand below others as their groups demand.

## Main results

* `Expr.Grouped.eq_of_inOrder_eq` : grouped trees that are read alike are equal.
* `Expr.depth_le_of_inOrder` : a tree is no deeper than it has operands.
-/

namespace Covenant

namespace Expr

/-- The operator at the root. -/
def root? : Expr → Option BinaryOp
  | binary _ op _ => some op
  | _ => none

/-- The operands from left to right: the first one, and each other one with the operator in front
of it. What is no operation is an operand. -/
def inOrder : Expr → Expr × List (BinaryOp × Expr)
  | binary left op right => (left.inOrder.1, left.inOrder.2 ++ (op, right.inOrder.1) ::
      right.inOrder.2)
  | e => (e, [])

/-- No left operand has an operator of a looser group than the operation, and no right operand has
one of the same group or a looser one. -/
def Grouped : Expr → Prop
  | binary left op right => left.Grouped ∧ right.Grouped ∧
      (∀ o ∈ left.root?, op.level ≤ o.level) ∧ ∀ o ∈ right.root?, op.level < o.level
  | _ => True

/-- Induction on trees of operations. -/
theorem operationInd {motive : Expr → Prop} (operand : ∀ e, e.root? = none → motive e)
    (binary : ∀ left op right, motive left → motive right → motive (binary left op right))
    (e : Expr) : motive e := by
  induction e with
  | binary left op right ihLeft ihRight => exact binary left op right ihLeft ihRight
  | _ => exact operand _ rfl

theorem inOrder_operand {e : Expr} (h : e.root? = none) : e.inOrder = (e, []) := by
  cases e with
  | binary => cases h
  | _ => rfl

theorem grouped_operand {e : Expr} (h : e.root? = none) : e.Grouped := by
  cases e with
  | binary => cases h
  | _ => trivial

/-- If the root of a grouped tree has at least this level, every operator has. -/
theorem Grouped.le_level {e : Expr} (h : e.Grouped) {level : Nat}
    (hroot : ∀ o ∈ e.root?, level ≤ o.level) : ∀ link ∈ e.inOrder.2, level ≤ link.1.level := by
  induction e using operationInd with
  | operand e he =>
    rw [inOrder_operand he]
    exact fun _ hlink => nomatch hlink
  | binary left op right ihLeft ihRight =>
    obtain ⟨hleft, hright, hlooser, htighter⟩ := h
    have hop : level ≤ op.level := hroot op rfl
    intro link hlink
    rcases List.mem_append.mp hlink with hlink | hlink
    · exact ihLeft hleft (fun o ho => Nat.le_trans hop (hlooser o ho)) link hlink
    rcases List.mem_cons.mp hlink with rfl | hlink
    · exact hop
    · exact ihRight hright (fun o ho => Nat.le_trans hop (Nat.le_of_lt (htighter o ho))) link hlink

/-- The operator at the root of a grouped tree is the last one of the loosest group, so its place
is known from what is read. -/
theorem split_unique {α : Type} {op op' : BinaryOp} {x x' : α}
    {before after before' after' : List (BinaryOp × α)}
    (hbefore : ∀ link ∈ before, op.level ≤ link.1.level)
    (hafter : ∀ link ∈ after, op.level < link.1.level)
    (hbefore' : ∀ link ∈ before', op'.level ≤ link.1.level)
    (hafter' : ∀ link ∈ after', op'.level < link.1.level)
    (h : before ++ (op, x) :: after = before' ++ (op', x') :: after') :
    before = before' ∧ (op, x) = (op', x') ∧ after = after' := by
  rcases List.append_eq_append_iff.mp h with ⟨between, rfl, hrest⟩ | ⟨between, rfl, hrest⟩
  · rcases between with _ | ⟨link, between⟩
    · obtain ⟨hlink, rfl⟩ := List.cons.inj hrest
      exact ⟨(List.append_nil _).symm, hlink, rfl⟩
    · obtain ⟨rfl, rfl⟩ := List.cons.inj hrest
      have hlt := hafter (op', x') (by simp)
      have hle := hbefore' (op, x) (by simp)
      exact absurd hle (Nat.not_le.mpr hlt)
  · rcases between with _ | ⟨link, between⟩
    · obtain ⟨hlink, rfl⟩ := List.cons.inj hrest
      exact ⟨List.append_nil _, hlink.symm, rfl⟩
    · obtain ⟨rfl, rfl⟩ := List.cons.inj hrest
      have hlt := hafter' (op, x) (by simp)
      have hle := hbefore (op', x') (by simp)
      exact absurd hle (Nat.not_le.mpr hlt)

/-- Grouped trees that are read alike are equal. -/
theorem Grouped.eq_of_inOrder_eq {e e' : Expr} (h : e.Grouped) (h' : e'.Grouped)
    (heq : e.inOrder = e'.inOrder) : e = e' := by
  induction e using operationInd generalizing e' with
  | operand e he =>
    cases e' using operationInd with
    | operand e' he' =>
      rw [inOrder_operand he, inOrder_operand he'] at heq
      exact (Prod.mk.inj heq).1
    | binary left' op' right' =>
      rw [inOrder_operand he] at heq
      exact absurd (Prod.mk.inj heq).2.symm (by simp)
  | binary left op right ihLeft ihRight =>
    cases e' using operationInd with
    | operand e' he' =>
      rw [inOrder_operand he'] at heq
      exact absurd (Prod.mk.inj heq).2 (by simp)
    | binary left' op' right' =>
      obtain ⟨hleft, hright, hlooser, htighter⟩ := h
      obtain ⟨hleft', hright', hlooser', htighter'⟩ := h'
      obtain ⟨hfirst, hlinks⟩ := Prod.mk.inj heq
      obtain ⟨hbefore, hlink, hafter⟩ := split_unique (hleft.le_level hlooser)
        (hright.le_level htighter) (hleft'.le_level hlooser') (hright'.le_level htighter') hlinks
      obtain ⟨rfl, hsecond⟩ := Prod.mk.inj hlink
      rw [ihLeft hleft hleft' (Prod.ext hfirst hbefore),
        ihRight hright hright' (Prod.ext hsecond hafter)]

/-- If the operands have no parts, a tree is no deeper than it has operands. -/
theorem depth_le_of_inOrder {e : Expr} (hfirst : e.inOrder.1.children = [])
    (hlinks : ∀ link ∈ e.inOrder.2, link.2.children = []) :
    e.depth ≤ e.inOrder.2.length + 1 := by
  induction e using operationInd with
  | operand e he =>
    rw [inOrder_operand he] at hfirst ⊢
    rw [depth_le_succ_iff, hfirst]
    exact fun _ hpart => nomatch hpart
  | binary left op right ihLeft ihRight =>
    obtain ⟨hleft, hrest⟩ := List.forall_mem_append.mp hlinks
    obtain ⟨hright, hrest⟩ := List.forall_mem_cons.mp hrest
    have hleft := ihLeft hfirst hleft
    have hright := ihRight hright hrest
    have hlength : (binary left op right).inOrder.2.length =
        left.inOrder.2.length + (right.inOrder.2.length + 1) := by
      simp [inOrder]
    rw [depth_le_succ_iff, hlength]
    simp only [children, List.mem_cons, List.not_mem_nil, or_false]
    rintro part (rfl | rfl) <;> omega

end Expr

end Covenant
