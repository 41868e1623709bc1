import Covenant.Engine
import Covenant.Proofs.Faults
import Covenant.Proofs.Jumps
import Covenant.Proofs.Placement

/-!
# Jumps find their loops

In a script that was read from a text every jump is inside a loop, which takes it. So evaluation may
be left by a jump only where the expression is inside a loop, and no script ends with the error of a
jump that no loop took. No operation ends with that error either.

## Main definitions

* `Exit.Stays`, `Eval.Stays` : an evaluation is left by a jump only inside a loop.

## Main results

* `eval_stays` : a placed expression is left by a jump only if it is inside a loop.
* `parse_shaped_execute` : the shape of scripts that were read, and how their runs do not end.
-/

namespace Covenant

variable {ι σ α β : Type}

theorem Placed.payload {b : Bool} {e : Expr} (h : Placed b e) : Placed b e.payload := by
  cases h <;> constructor <;> assumption

/-- A way to leave an evaluation: by a jump only if the flag says that there is a loop around, and
with no error but that of an operation. -/
def Exit.Stays (inLoop : Bool) : Exit → Prop
  | .jump _ => inLoop = true
  | .fail e => e.Operational
  | .unfinished => True

/-- The evaluation is left only in such ways. -/
def Eval.Stays (inLoop : Bool) (x : Eval σ α) : Prop :=
  Keeps (fun _ => True) (fun exit _ => exit.Stays inLoop) x

namespace Eval.Stays

variable {b : Bool}

theorem pure (a : α) : Stays b (pure a : Eval σ α) :=
  Keeps.pure a

theorem bind {x : Eval σ α} {f : α → Eval σ β} (hx : Stays b x) (hf : ∀ a, Stays b (f a)) :
    Stays b (x >>= f) :=
  Keeps.bind hx hf

/-! ### Operations -/

theorem ofRun {x : Run σ α} (hx : ∀ l, FailsOperationally (x l)) : Stays b (ofRun x) := by
  rintro ⟨scopes, ledger⟩ -
  have h := hx ledger
  simp only [Eval.ofRun]
  cases hr : x ledger <;> rw [hr] at h <;> exact h

theorem ofExcept {result : Except Error α} (h : FailsByValues result) :
    Stays b (ofExcept result : Eval σ α) := by
  rcases result with e | a
  · exact fun _ _ => h.operational
  · exact fun _ _ => trivial

theorem readName (name : String) : Stays b (readName name : Eval σ Value) := by
  intro w _
  simp only [Eval.readName, Scopes.get]
  cases w.scopes.lookup? name <;> exact trivial

theorem define (name : String) (value : Value) : Stays b (define name value : Eval σ Unit) :=
  fun _ _ => trivial

theorem assign (name : String) (value : Value) : Stays b (assign name value : Eval σ Unit) := by
  rintro ⟨scopes, ledger⟩ -
  simp only [Eval.assign]
  split
  · trivial
  · cases hset : scopes.set name value with
    | ok scopes' => trivial
    | error e =>
      rw [Scopes.set] at hset
      split at hset
      · cases hset
      · split at hset <;> cases hset
        trivial

theorem enter (setting : Setting ι σ) (depth : Nat) : Stays b (enter setting depth) :=
  (ofRun (Run.charge_operational _)).bind fun _ => ofRun (Run.checkExpressionDepth_operational _ _)

theorem truth (context : String) {x : Eval σ Value} (hx : Stays b x) : Stays b (truth context x) :=
  hx.bind fun _ => ofExcept (requireBoolean_byValues _ _)

theorem inScope (limits : Limits) {x : Eval σ α} (hx : Stays b x) :
    Stays b (inScope limits x) := by
  rw [inScope_eq]
  refine (ofRun (Run.checkpoint_operational _)).bind fun _ => ?_
  have hinside : Stays b (checkScope limits >>= fun _ => x) :=
    .bind (fun w => ofRun (Run.checkScopeDepth_operational limits w.scopes.depth) w) fun _ => hx
  rintro ⟨scopes, ledger⟩ -
  have h := hinside ⟨scopes.push, ledger⟩ trivial
  simp only [framed]
  cases hr : (checkScope limits >>= fun _ => x) ⟨scopes.push, ledger⟩ <;> rw [hr] at h <;> exact h

/-- A loop takes every jump of its body, so it may be outside all others. -/
theorem loopBody {x : Eval σ α} (hx : Stays true x) : Stays b (loopBody x) := by
  intro w _
  have h := hx w trivial
  rw [loopBody_eq]
  rcases hr : x w with ⟨a, w₁⟩ | ⟨j | e | _, w₁⟩ <;> rw [hr] at h
  · trivial
  · cases j <;> trivial
  · exact h
  · trivial

theorem repeatWhile {x : Eval σ Bool} (hx : Stays b x) (n : Nat) : Stays b (repeatWhile x n) := by
  induction n with
  | zero => exact fun _ _ => trivial
  | succ n ih =>
    refine hx.bind fun goesOn => ?_
    cases goesOn with
    | true => exact ih
    | false => exact .pure ()

/-! ### Evaluations in turn -/

theorem collect {xs : List (Eval σ Value)} (hxs : ∀ x ∈ xs, Stays b x) (done : List Value) :
    Stays b (collect done xs) := by
  induction xs generalizing done with
  | nil => exact .pure _
  | cons x rest ih =>
    rw [List.forall_mem_cons] at hxs
    exact hxs.1.bind fun _ => ih hxs.2 _

theorem inTurn {xs : List (Eval σ Value)} (hxs : ∀ x ∈ xs, Stays b x) (last : Value) :
    Stays b (inTurn last xs) := by
  induction xs generalizing last with
  | nil => exact .pure _
  | cons x rest ih =>
    rw [List.forall_mem_cons] at hxs
    exact hxs.1.bind fun _ => ih hxs.2 _

theorem gather {xs : List (String × Eval σ Value)} (hxs : ∀ x ∈ xs, Stays b x.2)
    (done : Table Value) : Stays b (gather done xs) := by
  induction xs generalizing done with
  | nil => exact .pure _
  | cons x rest ih =>
    rw [List.forall_mem_cons] at hxs
    exact hxs.1.bind fun _ => ih hxs.2 _

end Eval.Stays

/-! ### Expressions -/

open Eval

section Nodes

variable (setting : Setting ι σ) (allowance : Nat) {b : Bool} {part : Expr → Eval σ Value}

theorem binary_stays {left right : Expr} (op : BinaryOp) (hleft : Stays b (part left))
    (hright : Stays b (part right)) :
    Stays b (evalNode setting allowance part (.binary left op right)) := by
  rw [evalNode]
  split
  · refine (hleft.truth op.symbol).bind fun a => ?_
    split
    · exact .pure _
    · exact (hright.truth op.symbol).bind fun _ => .pure _
  · exact hleft.bind fun _ => hright.bind fun _ => .ofExcept (op.apply_byValues _ _)

theorem cond_stays {test yes : Expr} {no : Option Expr} (htest : Stays b (part test))
    (hyes : Stays b (part yes)) (hno : ∀ e ∈ no, Stays b (part e)) :
    Stays b (evalNode setting allowance part (.cond test yes no)) := by
  refine (htest.truth _).bind fun flag => ?_
  cases flag with
  | true => exact hyes
  | false =>
    cases no with
    | none => exact .pure _
    | some e => exact hno e rfl

/-- The body of a loop is inside it, and its test is not. -/
theorem loop_stays {test : Option Expr} {body : Expr} (htest : ∀ e ∈ test, Stays b (part e))
    (hbody : Stays true (part body)) :
    Stays b (evalNode setting allowance part (.loop test body)) := by
  refine Stays.bind (.repeatWhile ?_ allowance) fun _ => .pure _
  refine (Stays.ofRun (Run.checkpoint_operational _)).bind fun _ => Stays.bind ?_ fun goesOn => ?_
  · cases test with
    | none => exact .pure _
    | some e => exact (htest e rfl).truth _
  · cases goesOn with
    | true => exact .loopBody hbody
    | false => exact .pure _

/-- A construct whose parts are left by jumps only inside loops is so itself. -/
theorem evalNode_stays {e : Expr} (h : Placed b e.payload)
    (hpart : ∀ c ∈ e.children, ∀ b, Placed b c.payload → Stays b (part c)) :
    Stays b (evalNode setting allowance part e) := by
  have hplaced {b : Bool} {c : Expr} (hc : c ∈ e.children) (h : Placed b c) : Stays b (part c) :=
    hpart c hc b h.payload
  cases e with
  | literal value => exact .pure _
  | ref name => exact .readName _
  | declare name value =>
    refine (hplaced List.mem_cons_self h).bind fun a => ?_
    exact (Stays.define name a).bind fun _ => .pure _
  | binary left op right =>
    cases h with
    | binary hleft hright =>
      exact binary_stays setting allowance op (hplaced List.mem_cons_self hleft)
        (hplaced (List.mem_cons_of_mem _ List.mem_cons_self) hright)
  | unary op operand =>
    cases h with
    | unary h => exact (hplaced List.mem_cons_self h).bind fun _ => .ofExcept (op.apply_byValues _)
  | call name args =>
    cases h with
    | call h =>
      refine (Stays.collect (List.forall_mem_map.mpr fun c hc => hplaced hc (h c hc)) []).bind
        fun _ => ?_
      exact .ofRun (Run.call_operational _ _ _)
  | block items =>
    cases h with
    | block h =>
      exact .inScope _ (.inTurn (List.forall_mem_map.mpr fun c hc => hpart c hc b (h c hc)) _)
  | cond test yes no =>
    cases h with
    | cond htest hyes hno =>
      refine cond_stays setting allowance (hplaced List.mem_cons_self htest)
        (hplaced (List.mem_cons_of_mem _ List.mem_cons_self) hyes) fun e he => ?_
      exact hplaced (by simpa [Expr.children] using .inr (.inr he)) (hno e he)
  | loop test body =>
    cases h with
    | loop htest hbody =>
      refine loop_stays setting allowance (fun e he => ?_) (hplaced (by simp [Expr.children]) hbody)
      exact hplaced (by simpa [Expr.children] using .inl he) (htest e he)
  | assign target value =>
    cases h with
    | assign h =>
      refine (hplaced List.mem_cons_self h).bind fun a => ?_
      exact (Stays.assign target a).bind fun _ => .pure _
  | object entries =>
    cases h with
    | object h =>
      refine (Stays.gather (List.forall_mem_map.mpr fun entry hentry => ?_) []).bind
        fun _ => .pure _
      exact hplaced (List.mem_map_of_mem hentry) (h entry hentry)
  | array items =>
    cases h with
    | array h =>
      exact (Stays.collect (List.forall_mem_map.mpr fun c hc => hplaced hc (h c hc)) []).bind
        fun _ => .pure _
  | property target name =>
    cases h with
    | property h =>
      exact (hplaced List.mem_cons_self h).bind fun a => .ofExcept (a.property_byValues _)
  | index target position =>
    cases h with
    | index htarget hposition =>
      refine (hplaced List.mem_cons_self htarget).bind fun a => ?_
      refine (hplaced (List.mem_cons_of_mem _ List.mem_cons_self) hposition).bind fun position => ?_
      exact .ofExcept (a.index_byValues position)
  | jump j =>
    cases h
    exact fun _ _ => rfl

end Nodes

/-- An expression is left by a jump only if it is inside a loop. -/
theorem eval_stays (setting : Setting ι σ) (allowance : Nat) {b : Bool} {e : Expr}
    (h : Placed b e.payload) (depth : Nat) : Stays b (eval setting allowance depth e) := by
  induction e using Expr.childrenInd generalizing b depth with
  | node e ih =>
    rw [eval_eq]
    refine (Stays.enter setting _).bind fun _ => evalNode_stays setting allowance h ?_
    exact fun c hc b hplaced => ih c hc hplaced (depth + 1)

/-- No run of a script whose jumps are inside loops ends with the error of a jump that no loop took:
its error, if there is one, is that of an operation. -/
theorem interpret_operational (setting : Setting ι σ) (allowance : Nat) {script : Script}
    (h : ∀ s ∈ script.statements, Placed false s.expression.payload) (bindings : Table Value)
    (l : Ledger σ) {exit : Exit} {w : World σ} {e : Error}
    (hrun : interpret setting allowance script bindings l = .error exit w)
    (he : exit.error? = some e) : e.Operational := by
  have hstays : Stays false (evalStatements setting allowance .null script.statements) := by
    rw [evalStatements_eq]
    exact .inTurn (List.forall_mem_map.mpr fun s hs => eval_stays setting allowance (h s hs) 0) _
  have hexit := hstays ⟨globalsOf bindings, l⟩ trivial
  rw [interpret] at hrun
  rw [hrun] at hexit
  cases exit with
  | jump j => cases hexit
  | fail e' =>
    cases he
    exact hexit
  | unfinished => cases he

/-- In a script that was read from a text, every jump is in the body of a loop, every declaration is
a statement or an item of a block, bodies and branches are blocks, keys differ and literals are
scalars. So no engine that executes the script ends with the error of a jump outside all loops. -/
theorem parse_shaped_execute {name source : String} {script : Script}
    (h : parse name source = .ok script) :
    (∀ s ∈ script.statements, Shaped false s.expression.payload) ∧
    ∀ {ι σ : Type} (engine : Engine ι) (around : Surroundings ι σ) (options : Options) (state : σ)
      (j : Jump), (engine.execute around options script state).1 ≠
        .error (.type (.jumpOutsideLoop j)) := by
  refine ⟨parse_shaped h, fun engine around options state j hending => ?_⟩
  simp only [Engine.execute, Engine.endingOf] at hending
  split at hending
  · cases hending
  · rename_i exit w hrun
    split at hending
    · rename_i e he
      cases hending
      exact interpret_operational _ _ (parse_placed h) _ _ hrun he
    · cases hending

/-- A text with both jumps in a loop, one of them in a choice within a choice. -/
def restlessText : String :=
  "let n = 0\nloop \x7b n = n + 1; if n < 3 \x7b continue \x7d else if n == 3 \x7b break \x7d \x7d"

theorem parse_shaped_execute_restless : ∃ script, parse "main" restlessText = .ok script ∧
    (script.statements.any fun s => s.expression.hasJump) = true ∧
    (∀ s ∈ script.statements, Shaped false s.expression.payload) ∧
    ∀ (engine : Engine Unit) (around : Surroundings Unit Nat) (options : Options) (state : Nat)
      (j : Jump), (engine.execute around options script state).1 ≠
        .error (.type (.jumpOutsideLoop j)) := by
  have hcheck : (parse "main" restlessText).toOption.any (fun script =>
      script.statements.any fun s => s.expression.hasJump) = true := by
    decide +kernel
  obtain ⟨script, hparse, hjump⟩ := exists_ok_of_check hcheck
  obtain ⟨hshaped, hruns⟩ := parse_shaped_execute hparse
  exact ⟨script, hparse, hjump, hshaped, fun engine around options state j =>
    hruns engine around options state j⟩

end Covenant
