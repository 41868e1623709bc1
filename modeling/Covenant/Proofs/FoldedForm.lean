import Covenant.Proofs.CallShapes
import Covenant.Proofs.EnclosedJumps
import Mathlib.Data.List.Flatten

/-!
# What folding leaves

A folded expression has no node that folding would still replace, and it is the only one of its
kind: folding leaves alone exactly the expressions without such nodes. So one pass from the leaves
upward is enough, although every replacement may hand its parent a new literal or stand where the
parent was. A folded expression is no deeper than the expression, and of its calls it has some, in
the same order.

## Main definitions

* `Expr.Redex` : an expression that folding replaces, given that its parts are folded.
* `Expr.Folded` : an expression without such nodes.

## Main results

* `Expr.reduce_eq_self_iff` : at the root, folding replaces exactly these expressions.
* `Expr.fold_eq_self_iff` : folding leaves alone exactly the folded expressions.
* `Expr.depth_fold_le`, `Expr.callShapes_fold_sublist` : depth and calls of what is folded.
* `Script.fold_shrinks` : a folded script stays as it is when folded again, and is no larger.
-/

namespace Covenant

/-- What is read from a list item by item, if every item read is written in one way. -/
theorem mapM_eq_some_iff_map {α β : Type} {f : α → Option β} {g : β → α}
    (h : ∀ a b, f a = some b ↔ a = g b) {l : List α} {l' : List β} :
    l.mapM f = some l' ↔ l = l'.map g := by
  induction l generalizing l' with
  | nil => cases l' <;> simp
  | cons a l ih => cases l' <;> simp [List.mapM_cons, Option.bind_eq_some_iff, h, ih]

namespace Expr

/-! ### Expressions left to fold -/

/-- An expression that has become known by its parts: an operation on literals that has a result, a
logical operation that its left operand decides, a choice with a known test, a repetition that is
not entered, or a collection of literals. -/
inductive Redex : Expr → Prop
  | unary {op : UnaryOp} {a value : Value} : op.apply a = .ok value →
      Redex (unary op (literal a))
  | binary {op : BinaryOp} {a b value : Value} : op.apply a b = .ok value →
      Redex (binary (literal a) op (literal b))
  | decided {op : BinaryOp} {flag : Bool} {right : Expr} : op.isLogical = true →
      op.decides flag = true → Redex (binary (literal (.boolean flag)) op right)
  | choice {flag : Bool} {yes : Expr} {no : Option Expr} :
      Redex (cond (literal (.boolean flag)) yes no)
  | idle {body : Expr} : Redex (loop (some (literal (.boolean false))) body)
  | array {values : List Value} : Redex (array (values.map literal))
  | object {fields : List (String × Value)} :
      Redex (object (fields.map fun field => (field.1, literal field.2)))

theorem literal?_eq_some_iff {e : Expr} {value : Value} :
    e.literal? = some value ↔ e = literal value :=
  ⟨eq_literal_of_literal?, fun h => h ▸ rfl⟩

theorem literals?_eq_some_iff {items : List Expr} {values : List Value} :
    items.mapM literal? = some values ↔ items = values.map literal :=
  mapM_eq_some_iff_map fun _ _ => literal?_eq_some_iff

theorem fields?_eq_some_iff {entries : List (String × Expr)} {fields : List (String × Value)} :
    (entries.mapM fun (key, e) => e.literal?.map (key, ·)) = some fields ↔
      entries = fields.map fun field => (field.1, literal field.2) := by
  refine mapM_eq_some_iff_map fun ⟨key, e⟩ ⟨key', value⟩ => ?_
  simp only [Option.map_eq_some_iff, literal?_eq_some_iff, Prod.mk.injEq]
  constructor
  · rintro ⟨value, rfl, rfl, rfl⟩
    exact ⟨rfl, rfl⟩
  · rintro ⟨rfl, rfl⟩
    exact ⟨value, rfl, rfl, rfl⟩

/-- A logical operation has a result only on booleans. -/
theorem boolean_of_apply {op : BinaryOp} {a b value : Value} (hlogical : op.isLogical = true)
    (happly : op.apply a b = .ok value) : ∃ flag, a = .boolean flag := by
  cases a with
  | boolean flag => exact ⟨flag, rfl⟩
  | _ => cases op <;> cases hlogical <;> cases happly

theorem foldBinary_eq_self {left right : Expr} {op : BinaryOp}
    (h : ¬ (binary left op right).Redex) : foldBinary left op right = binary left op right := by
  unfold foldBinary
  cases hleft : left.literal? with
  | none => rfl
  | some a =>
    obtain rfl := eq_literal_of_literal? hleft
    have hundecided (hlogical : op.isLogical = true) (flag : Bool)
        (hflag : a.boolean? = some flag) : ¬ op.decides flag = true := by
      intro hdecides
      obtain rfl : a = .boolean flag := by cases a <;> simp_all [Value.boolean?]
      exact h (.decided hlogical hdecides)
    have hkept (b : Value) (hright : right.literal? = some b) :
        ofResult (binary (literal a) op right) (op.apply a b) = binary (literal a) op right := by
      obtain rfl := eq_literal_of_literal? hright
      cases happly : op.apply a b with
      | error e => rfl
      | ok value => exact absurd (.binary happly) h
    dsimp only
    split_ifs with hlogical
    · split
      · rename_i flag hflag
        rw [if_neg (hundecided hlogical flag hflag)]
        split
        · exact hkept _ ‹_›
        · rfl
      · rfl
    · split
      · exact hkept _ ‹_›
      · rfl

/-- Where there is nothing to fold, the expression stays. -/
theorem reduce_eq_self {e : Expr} (h : ¬ e.Redex) : e.reduce = e := by
  cases e with
  | binary left op right => exact foldBinary_eq_self h
  | unary op operand =>
    simp only [reduce, foldUnary]
    split
    · rename_i a hoperand
      obtain rfl := eq_literal_of_literal? hoperand
      split
      · rename_i value happly
        exact absurd (.unary happly) h
      · rfl
    · rfl
  | cond test yes no =>
    simp only [reduce, foldCond]
    split
    · rename_i htest
      obtain rfl := eq_literal_of_flag? htest
      exact absurd .choice h
    · rename_i htest
      obtain rfl := eq_literal_of_flag? htest
      exact absurd .choice h
    · rfl
  | loop test body =>
    cases test with
    | none => rfl
    | some test =>
      simp only [reduce]
      split_ifs with htest
      · obtain rfl := eq_literal_of_flag? htest
        exact absurd .idle h
      · rfl
  | object entries =>
    simp only [reduce, foldObject]
    split
    · rename_i fields hfields
      obtain rfl := fields?_eq_some_iff.mp hfields
      exact absurd .object h
    · rfl
  | array items =>
    simp only [reduce, foldArray]
    split
    · rename_i values hvalues
      obtain rfl := literals?_eq_some_iff.mp hvalues
      exact absurd .array h
    · rfl
  | _ => rfl

/-- What is left to fold becomes a literal or the branch taken. -/
theorem Redex.reduce_ne {e : Expr} (h : e.Redex) : e.reduce ≠ e := by
  have hliteral (hreduce : ∃ value, e.reduce = literal value) (hself : e.literal? = none) :
      e.reduce ≠ e := by
    obtain ⟨value, hreduce⟩ := hreduce
    intro heq
    rw [← heq, hreduce] at hself
    cases hself
  have hpart (hreduce : e.reduce ∈ e.children) : e.reduce ≠ e := by
    intro heq
    rw [heq] at hreduce
    exact absurd (depth_lt_of_mem_children hreduce) (Nat.lt_irrefl _)
  cases h with
  | @unary op a value happly =>
    refine hliteral ⟨value, ?_⟩ rfl
    simp only [reduce, foldUnary, literal?, happly]
  | @binary op a b value happly =>
    refine hliteral ?_ rfl
    cases hlogical : op.isLogical with
    | false => exact ⟨value, by simp [reduce, foldBinary, literal?, hlogical, happly]⟩
    | true =>
      obtain ⟨flag, rfl⟩ := boolean_of_apply hlogical happly
      simp only [reduce, foldBinary, literal?, Value.boolean?, hlogical, happly, if_true]
      split_ifs
      · exact ⟨_, rfl⟩
      · exact ⟨_, rfl⟩
  | @decided op flag right hlogical hdecides =>
    refine hliteral ⟨.boolean flag, ?_⟩ rfl
    simp [reduce, foldBinary, literal?, hlogical, Value.boolean?, hdecides]
  | @choice flag yes no =>
    cases flag with
    | true => exact hpart (by simp [reduce, foldCond, flag?, literal?, Value.boolean?, children])
    | false =>
      cases no with
      | none => exact hliteral ⟨.null, rfl⟩ rfl
      | some no =>
        exact hpart (by simp [reduce, foldCond, flag?, literal?, Value.boolean?, children])
  | idle => exact hliteral ⟨.null, by simp [reduce, flag?, literal?, Value.boolean?]⟩ rfl
  | @array values =>
    refine hliteral ⟨.array values, ?_⟩ rfl
    simp only [reduce, foldArray, literals?_eq_some_iff.mpr rfl]
  | @object fields =>
    refine hliteral ⟨Value.ofFields fields, ?_⟩ rfl
    simp only [reduce, foldObject, fields?_eq_some_iff.mpr rfl]

/-- At the root, folding replaces exactly what is left to fold there. -/
theorem reduce_eq_self_iff (e : Expr) : e.reduce = e ↔ ¬ e.Redex :=
  ⟨fun h hredex => hredex.reduce_ne h, reduce_eq_self⟩

/-! ### Folded expressions -/

/-- No node of the expression is left to fold. -/
def Folded (e : Expr) : Prop :=
  e.Everywhere fun node => ¬ node.Redex

theorem folded_literal (value : Value) : (literal value).Folded :=
  everywhere_iff.mpr ⟨nofun, List.forall_mem_nil _⟩

/-- One pass leaves nothing to fold. -/
theorem folded_fold (e : Expr) : e.fold.Folded := by
  induction e using childrenInd with
  | node e ih =>
    have hparts : ∀ part ∈ (e.mapParts fold).children, part.Folded := by
      rw [children_mapParts, List.forall_mem_map]
      exact ih
    rw [fold_eq]
    rcases (e.mapParts fold).reduce_cases with hkept | ⟨value, hliteral⟩ | hpart
    · rw [hkept]
      exact everywhere_iff.mpr ⟨(reduce_eq_self_iff _).mp hkept, hparts⟩
    · rw [hliteral]
      exact folded_literal value
    · exact hparts _ hpart

/-- Where nothing is left to fold, folding changes nothing. -/
theorem Folded.fold_eq_self {e : Expr} (h : e.Folded) : e.fold = e := by
  induction e using childrenInd with
  | node e ih =>
    obtain ⟨hroot, hparts⟩ := everywhere_iff.mp h
    rw [fold_eq, mapParts_eq_self fun part hpart => ih part hpart (hparts part hpart)]
    exact reduce_eq_self hroot

/-- Folding leaves alone exactly the folded expressions. -/
theorem fold_eq_self_iff (e : Expr) : e.fold = e ↔ e.Folded :=
  ⟨fun h => h ▸ e.folded_fold, Folded.fold_eq_self⟩

theorem fold_fold (e : Expr) : e.fold.fold = e.fold :=
  e.folded_fold.fold_eq_self

/-- An operation that fails is not left to fold: it stays, with folded operands. -/
example : (binary (literal (.integer 1)) .divide (unary .negate (literal (.integer 0)))).fold =
    binary (literal (.integer 1)) .divide (literal (.integer 0)) := by
  rfl

/-! ### Depth and calls of folded expressions -/

/-- Folding makes an expression no deeper. -/
theorem depth_fold_le (e : Expr) : e.fold.depth ≤ e.depth := by
  induction e using childrenInd with
  | node e ih =>
    have hmapped : (e.mapParts fold).depth ≤ e.depth := by
      obtain ⟨n, hn⟩ := Nat.exists_eq_succ_of_ne_zero (Nat.ne_of_gt e.depth_pos)
      rw [hn, depth_le_succ_iff, children_mapParts, List.forall_mem_map]
      intro part hpart
      exact Nat.le_trans (ih part hpart) ((e.depth_le_succ_iff n).mp (Nat.le_of_eq hn) part hpart)
    rw [fold_eq]
    rcases (e.mapParts fold).reduce_cases with hkept | ⟨value, hliteral⟩ | hpart
    · rw [hkept]
      exact hmapped
    · rw [hliteral]
      exact e.depth_pos
    · exact Nat.le_trans (Nat.le_of_lt (depth_lt_of_mem_children hpart)) hmapped

theorem callShape?_mapParts (f : Expr → Expr) (e : Expr) :
    (e.mapParts f).callShape? = e.callShape? := by
  cases e <;> simp [mapParts, callShape?]

/-- The calls of a part are among those of the whole, in the same order. -/
theorem callShapes_sublist_of_mem_children {e part : Expr} (h : part ∈ e.children) :
    part.callShapes.Sublist e.callShapes := by
  rw [e.callShapes_eq, List.flatMap]
  have hpart := List.sublist_flatten_of_mem (List.mem_map_of_mem (f := callShapes) h)
  exact hpart.trans (List.sublist_append_right _ _)

/-- The calls of a folded expression are among those of the expression, in the same order. -/
theorem callShapes_fold_sublist (e : Expr) : e.fold.callShapes.Sublist e.callShapes := by
  induction e using childrenInd with
  | node e ih =>
    have hmapped : (e.mapParts fold).callShapes.Sublist e.callShapes := by
      rw [callShapes_eq, callShapes_eq e, callShape?_mapParts, children_mapParts, List.flatMap_map]
      exact (List.Sublist.flatMap_right _ ih).append_left _
    rw [fold_eq]
    rcases (e.mapParts fold).reduce_cases with hkept | ⟨value, hliteral⟩ | hpart
    · rw [hkept]
      exact hmapped
    · rw [hliteral]
      exact List.nil_sublist _
    · exact (callShapes_sublist_of_mem_children hpart).trans hmapped

end Expr

/-! ### Folded scripts -/

/-- **One pass is enough, and it only shrinks.** Folding a folded script changes nothing, since no
node of it is left to fold. Statement by statement it is no deeper than the script, and its calls,
by name and number of arguments, are among those of the script, in the same order. -/
theorem Script.fold_shrinks (script : Script) :
    script.fold.fold = script.fold ∧
      (∀ s ∈ script.fold.statements, s.expression.Folded) ∧
      List.Forall₂ (fun folded s => folded.expression.depth ≤ s.expression.depth)
        script.fold.statements script.statements ∧
      (script.fold.calls.map fun call => (call.1, call.2.length)).Sublist
        (script.calls.map fun call => (call.1, call.2.length)) := by
  refine ⟨?_, ?_, ?_, ?_⟩
  · simp only [Script.fold, List.map_map, Function.comp_def, Expr.fold_fold]
  · simp only [Script.fold, List.forall_mem_map]
    exact fun s _ => s.expression.folded_fold
  · simp only [Script.fold, List.forall₂_map_left_iff]
    exact List.forall₂_same.mpr fun s _ => s.expression.depth_fold_le
  · rw [Script.map_calls, Script.map_calls, Script.fold, List.flatMap_map]
    exact List.Sublist.flatMap_right _ fun s _ => s.expression.callShapes_fold_sublist

end Covenant
