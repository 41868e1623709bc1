import Covenant.Proofs.Expression
import Covenant.Proofs.Rendering

/-!
# The calls of an expression

The calls of an expression are those of its own and of its parts, in order. Two expressions are
alike if they have the same calls, by name and number of arguments, and if the second one can stand
where a name is asked for only if the first one can, under the same name. The expression that a
value is written as has no calls and stands for no name.

## Main definitions

* `Expr.callShapes` : the names and numbers of arguments of the calls.
* `Alike` : two expressions with the same calls.

## Main results

* `Alike.node` : expressions of one form whose parts have the same calls are alike.
* `Value.callShapes_sourceExpr` : a value has no calls.
* `Script.map_calls` : the calls of a script are those of its statements.
* `map_calls_eq` : the calls of scripts whose statements are alike.
-/

namespace Covenant

namespace Expr

/-- The name and number of arguments of a call. -/
def callShape? : Expr → Option (String × Nat)
  | call name args => some (name, args.length)
  | _ => none

/-- The names and numbers of arguments of all calls, in the order of the text. -/
def callShapes (e : Expr) : List (String × Nat) :=
  e.walk.filterMap callShape?

theorem callShapes_eq (e : Expr) :
    e.callShapes = e.callShape?.toList ++ e.children.flatMap callShapes := by
  have hchildren (es : List Expr) : (es.flatMap walk).filterMap callShape? =
      es.flatMap callShapes := by
    rw [List.filterMap_flatMap]
    rfl
  rw [callShapes, walk_eq, List.filterMap_cons, hchildren]
  cases e.callShape? <;> rfl

end Expr

theorem flatMap_eq_of_forall₂ {α β γ : Type} {R : α → β → Prop} {f : α → List γ} {g : β → List γ}
    {as : List α} {bs : List β} (h : List.Forall₂ R as bs) (hfg : ∀ a b, R a b → f a = g b) :
    as.flatMap f = bs.flatMap g := by
  induction h with
  | nil => rfl
  | cons hpart _ ih => rw [List.flatMap_cons, List.flatMap_cons, hfg _ _ hpart, ih]

/-- Two expressions with the same calls, of which the second is a name, or names a function, only if
the first is the same. -/
structure Alike (e e' : Expr) : Prop where
  calls : e.callShapes = e'.callShapes
  callee : ∀ name, Parser.calleeName? e' = some name → Parser.calleeName? e = some name
  ref : ∀ name, e' = .ref name → e = .ref name

namespace Alike

/-- Expressions of which the second names nothing are alike if their parts have the same calls. -/
theorem node {e e' : Expr} (hshape : e.callShape? = e'.callShape?)
    (hchildren : List.Forall₂ Alike e.children e'.children)
    (hcallee : Parser.calleeName? e' = none) : Alike e e' := by
  refine ⟨?_, fun name hname => ?_, fun name hname => ?_⟩
  · rw [Expr.callShapes_eq, Expr.callShapes_eq, hshape]
    congr 1
    exact flatMap_eq_of_forall₂ hchildren fun _ _ hpart => hpart.calls
  · rw [hcallee] at hname
    cases hname
  · subst hname
    cases hcallee

theorem of_callShapes_nil {e e' : Expr} (h : e.callShapes = []) (h' : e'.callShapes = [])
    (hcallee : Parser.calleeName? e' = none) : Alike e e' where
  calls := h.trans h'.symm
  callee name hname := by
    rw [hcallee] at hname
    cases hname
  ref name hname := by
    subst hname
    cases hcallee

theorem refl (e : Expr) : Alike e e := ⟨rfl, fun _ => id, fun _ => id⟩

theorem property {e e' : Expr} (h : Alike e e') (name : String) :
    Alike (.property e name) (.property e' name) := by
  refine ⟨?_, fun callee hcallee => ?_, fun _ hname => nomatch hname⟩
  · rw [Expr.callShapes_eq, Expr.callShapes_eq (.property e' name)]
    simp [Expr.callShape?, Expr.children, h.calls]
  · obtain ⟨front, hfront, rfl⟩ := Option.map_eq_some_iff.mp hcallee
    exact Option.map_eq_some_iff.mpr ⟨front, h.callee front hfront, rfl⟩

/-- A value behind an operator is alike to what the operand is alike to. -/
theorem behind {e e' : Expr} (h : Alike e e') (op : UnaryOp) : Alike e (.unary op e') := by
  refine ⟨?_, (fun _ hcallee => nomatch hcallee), fun _ hname => nomatch hname⟩
  rw [h.calls, Expr.callShapes_eq (.unary op e')]
  simp [Expr.callShape?, Expr.children]

theorem binary {left left' right right' : Expr} (hleft : Alike left left')
    (hright : Alike right right') (op : BinaryOp) :
    Alike (.binary left op right) (.binary left' op right') :=
  node rfl (.cons hleft (.cons hright .nil)) rfl

theorem call {args args' : List Expr} (h : List.Forall₂ Alike args args') (name : String) :
    Alike (.call name args) (.call name args') :=
  node (by rw [Expr.callShape?, Expr.callShape?, h.length_eq]) h rfl

theorem object {entries entries' : List (String × Expr)}
    (h : List.Forall₂ (fun entry entry' => entry.1 = entry'.1 ∧ Alike entry.2 entry'.2)
      entries entries') : Alike (.object entries) (.object entries') := by
  refine node rfl ?_ rfl
  rw [Expr.children, Expr.children, List.forall₂_map_left_iff, List.forall₂_map_right_iff]
  exact h.imp fun _ _ hentry => hentry.2

end Alike

/-! ### Values -/

namespace Value

/-- The expression that a value is written as has no calls. -/
theorem callShapes_sourceExpr (v : Value) : v.sourceExpr.callShapes = [] := by
  have hnode {e : Expr} (hshape : e.callShape? = none)
      (hchildren : ∀ part ∈ e.children, part.callShapes = []) : e.callShapes = [] := by
    rw [Expr.callShapes_eq, hshape, List.flatMap_eq_nil_iff.mpr hchildren]
    rfl
  have hleaf {e : Expr} (hshape : e.callShape? = none) (hchildren : e.children = []) :
      e.callShapes = [] :=
    hnode hshape (by simp [hchildren])
  have hsigned (negative : Bool) {e : Expr} (h : e.callShapes = []) :
      (signed negative e).callShapes = [] := by
    unfold signed
    split
    · exact hnode rfl (by simpa [Expr.children] using h)
    · exact h
  induction v with
  | string text | boolean flag | null => exact hleaf rfl rfl
  | number x =>
    rw [sourceExpr]
    split
    · exact hleaf rfl rfl
    · refine hsigned _ ?_
      split <;> exact hleaf rfl rfl
  | integer n =>
    rw [sourceExpr]
    split
    · refine hnode rfl ?_
      simp only [Expr.children, List.mem_cons, List.not_mem_nil, or_false]
      rintro part (rfl | rfl)
      · exact hsigned true (hleaf rfl rfl)
      · exact hleaf rfl rfl
    · exact hsigned _ (hleaf rfl rfl)
  | array items ih =>
    refine hnode rfl fun part hpart => ?_
    obtain ⟨item, hitem, rfl⟩ := mem_sourceItems hpart
    exact ih item hitem
  | object fields ih =>
    refine hnode rfl fun part hpart => ?_
    obtain ⟨entry, hentry, rfl⟩ := List.mem_map.mp hpart
    obtain hnil | ⟨field, hfield, heq⟩ := mem_sourceFields (List.mem_reverse.mp hentry)
    · cases hnil
    · rw [← heq]
      exact ih field hfield

end Value

/-- The calls of a script, by name and number of arguments, are those of its statements in turn. -/
theorem Script.map_calls (script : Script) :
    script.calls.map (fun call => (call.1, call.2.length)) =
      script.statements.flatMap fun s => s.expression.callShapes := by
  rw [Script.calls, List.map_flatMap]
  congr 1
  funext s
  rw [List.map_filterMap, Expr.callShapes]
  congr 1
  funext e
  cases e <;> rfl

/-- Scripts whose statements are alike have the same calls. -/
theorem map_calls_eq {script script' : Script}
    (h : List.Forall₂ (fun s s' => Alike s.expression s'.expression) script.statements
      script'.statements) :
    script.calls.map (fun call => (call.1, call.2.length)) =
      script'.calls.map fun call => (call.1, call.2.length) := by
  rw [Script.map_calls, Script.map_calls]
  exact flatMap_eq_of_forall₂ h fun _ _ hpart => hpart.calls

end Covenant
