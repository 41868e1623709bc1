import Covenant.Proofs.Evaluation

/-!
# Jumps in tests

A repetition takes the jumps of its body but not those of its test, which leave it for the loop
around it. The same expression with the test moved into the body (`Expr.encloseTests`) is one whose
repetitions take the jumps of their tests too. Where no test has a jump, the two are the same.

## Main definitions

* `Expr.hasJump` : whether there is a jump in an expression.
* `Expr.TestsWithoutJumps`, `Script.TestsWithoutJumps` : no test of a repetition has a jump.
* `Expr.encloseTests`, `Script.encloseTests` : the tests that have jumps moved into the bodies.

## Main results

* `eval_jumpless` : without a jump in it, an expression does not end with one.
* `Expr.encloseTests_eq_self` : without jumps in tests there is nothing to move.
* `Expr.depth_encloseTests_le` : moving tests at most doubles the depth.
-/

namespace Covenant

variable {ι σ : Type}

namespace Expr

/-- Whether the expression is a jump. -/
def isJump : Expr → Bool
  | jump _ => true
  | _ => false

/-- Whether there is a jump in the expression. -/
def hasJump (e : Expr) : Bool :=
  e.walk.any isJump

theorem hasJump_eq_false_iff (e : Expr) : e.hasJump = false ↔ ∀ j, .jump j ∉ e.walk := by
  simp only [hasJump, List.any_eq_false]
  constructor
  · exact fun h j hj => h _ hj rfl
  · intro h node hnode
    cases node with
    | jump j => exact absurd hnode (h j)
    | _ => exact Bool.false_ne_true

/-- No test of a repetition in the expression has a jump in it. -/
def TestsWithoutJumps (e : Expr) : Prop :=
  ∀ test body, loop (some test) body ∈ e.walk → ∀ j, .jump j ∉ test.walk

theorem TestsWithoutJumps.part {e part : Expr} (h : e.TestsWithoutJumps)
    (hpart : part ∈ e.children) : part.TestsWithoutJumps :=
  fun test body hloop => h test body (mem_walk_of_mem_children hpart hloop)

mutual

/-- The expression in which a repetition whose test has a jump has the test in its body, and so
takes the jump itself. -/
def encloseTests : Expr → Expr
  | literal value => literal value
  | ref name => ref name
  | binary left op right => binary left.encloseTests op right.encloseTests
  | unary op operand => unary op operand.encloseTests
  | call name args => call name (encloseTestsAll args)
  | block items => block (encloseTestsAll items)
  | cond test yes none => cond test.encloseTests yes.encloseTests none
  | cond test yes (some no) => cond test.encloseTests yes.encloseTests (some no.encloseTests)
  | loop none body => loop none body.encloseTests
  | loop (some test) body =>
    if test.hasJump then
      loop none (cond test.encloseTests body.encloseTests (some (jump .break_)))
    else loop (some test.encloseTests) body.encloseTests
  | assign target value => assign target value.encloseTests
  | declare name value => declare name value.encloseTests
  | object entries => object (encloseTestsEntries entries)
  | array items => array (encloseTestsAll items)
  | property target name => property target.encloseTests name
  | index target position => index target.encloseTests position.encloseTests
  | jump j => jump j

/-- The expressions, each with its tests enclosed. -/
def encloseTestsAll : List Expr → List Expr
  | [] => []
  | e :: rest => e.encloseTests :: encloseTestsAll rest

/-- The entries, each with its tests enclosed. -/
def encloseTestsEntries : List (String × Expr) → List (String × Expr)
  | [] => []
  | (key, e) :: rest => (key, e.encloseTests) :: encloseTestsEntries rest

end

theorem encloseTestsAll_eq (es : List Expr) : encloseTestsAll es = es.map encloseTests := by
  induction es with
  | nil => rfl
  | cons e rest ih => simp only [encloseTestsAll, ih, List.map_cons]

theorem encloseTestsEntries_eq (entries : List (String × Expr)) :
    encloseTestsEntries entries = entries.map fun entry => (entry.1, entry.2.encloseTests) := by
  induction entries with
  | nil => rfl
  | cons entry rest ih => simp only [encloseTestsEntries, ih, List.map_cons]

/-- Only at a repetition whose test has a jump is there anything to do but at the parts. -/
theorem encloseTests_eq (e : Expr) :
    (∃ test body, e = loop (some test) body ∧ test.hasJump = true ∧
      e.encloseTests = loop none (cond test.encloseTests body.encloseTests (some (jump .break_)))) ∨
    ((∀ test body, e = loop (some test) body → test.hasJump = false) ∧
      e.encloseTests = e.mapParts encloseTests) := by
  cases e with
  | loop test body =>
    cases test with
    | none => exact .inr ⟨by rintro _ _ ⟨⟩, by simp [encloseTests, mapParts]⟩
    | some test =>
      cases hjump : test.hasJump with
      | true => exact .inl ⟨test, body, rfl, hjump, by simp [encloseTests, hjump]⟩
      | false =>
        refine .inr ⟨?_, by simp [encloseTests, mapParts, hjump]⟩
        rintro _ _ ⟨⟩
        exact hjump
  | cond test yes no =>
    refine .inr ⟨by rintro _ _ ⟨⟩, ?_⟩
    cases no <;> simp [encloseTests, mapParts]
  | object entries =>
    exact .inr ⟨by rintro _ _ ⟨⟩, by simp [encloseTests, mapParts, encloseTestsEntries_eq]⟩
  | _ => exact .inr ⟨by rintro _ _ ⟨⟩, by simp [encloseTests, mapParts, encloseTestsAll_eq]⟩

theorem mapParts_eq_self {f : Expr → Expr} {e : Expr} (h : ∀ part ∈ e.children, f part = part) :
    e.mapParts f = e := by
  have hall (parts : List Expr) (hparts : ∀ part ∈ parts, f part = part) : parts.map f = parts := by
    rw [List.map_congr_left hparts, List.map_id']
  cases e with
  | call name args => rw [mapParts, hall args h]
  | block items => rw [mapParts, hall items h]
  | array items => rw [mapParts, hall items h]
  | object entries =>
    have hentry (entry : String × Expr) (hmem : entry ∈ entries) : (entry.1, f entry.2) = entry :=
      Prod.ext rfl (h _ (List.mem_map_of_mem hmem))
    rw [mapParts, List.map_congr_left hentry, List.map_id']
  | cond test yes no => cases no <;> simp_all [mapParts, children]
  | loop test body => cases test <;> simp_all [mapParts, children]
  | _ => simp_all [mapParts, children]

theorem children_mapParts (f : Expr → Expr) (e : Expr) :
    (e.mapParts f).children = e.children.map f := by
  cases e with
  | cond test yes no => cases no <;> rfl
  | loop test body => cases test <;> rfl
  | object entries => simp [mapParts, children]
  | _ => rfl

/-- Where no test has a jump there is nothing to move. -/
theorem encloseTests_eq_self {e : Expr} (h : e.TestsWithoutJumps) : e.encloseTests = e := by
  induction e using childrenInd with
  | node e ih =>
    obtain ⟨test, body, rfl, hjump, -⟩ | ⟨-, heq⟩ := encloseTests_eq e
    · have hnone := (hasJump_eq_false_iff test).mpr (h test body (mem_walk_self _))
      rw [hnone] at hjump
      cases hjump
    · rw [heq, mapParts_eq_self fun part hpart => ih part hpart (h.part hpart)]

/-- An expression without jumps has none in its tests. -/
theorem encloseTests_eq_self_of_hasJump {e : Expr} (h : e.hasJump = false) :
    e.encloseTests = e := by
  rw [hasJump_eq_false_iff] at h
  refine encloseTests_eq_self fun test body hloop j hj => h j ?_
  exact mem_walk_trans hloop (mem_walk_of_mem_children (by simp [children]) hj)

/-- Moving a test into the body puts it one level deeper, at every level of the expression. -/
theorem depth_encloseTests_le (e : Expr) : e.encloseTests.depth ≤ 2 * e.depth := by
  induction e using childrenInd with
  | node e ih =>
    obtain ⟨n, hn⟩ : ∃ n, e.depth = n + 1 := ⟨e.depth - 1, by have := e.depth_pos; omega⟩
    have hpart (part : Expr) (hmem : part ∈ e.children) : part.encloseTests.depth ≤ 2 * n := by
      have hdepth := (depth_le_succ_iff e n).mp (Nat.le_of_eq hn) part hmem
      have hih := ih part hmem
      omega
    rw [hn, show 2 * (n + 1) = 2 * n + 1 + 1 by omega, depth_le_succ_iff]
    obtain ⟨test, body, rfl, -, heq⟩ | ⟨-, heq⟩ := encloseTests_eq e
    · have hjump : (jump .break_).depth ≤ 2 * n := by
        have hbody := hpart body (by simp [children])
        have hpos := body.encloseTests.depth_pos
        exact Nat.le_trans ((depth_le_succ_iff _ 0).mpr (by simp [children])) (by omega)
      simp only [heq, children, Option.toList_none, List.nil_append, List.forall_mem_singleton]
      rw [depth_le_succ_iff]
      simpa [children, hjump] using
        ⟨hpart test (by simp [children]), hpart body (by simp [children])⟩
    · rw [heq, children_mapParts, List.forall_mem_map]
      exact fun part hmem => Nat.le_succ_of_le (hpart part hmem)

end Expr

/-- No test of a repetition in the script has a jump in it. -/
def Script.TestsWithoutJumps (script : Script) : Prop :=
  ∀ s ∈ script.statements, s.expression.TestsWithoutJumps

/-- Whether the expression is no repetition whose test has a jump. -/
def Expr.isPlainTest : Expr → Bool
  | loop (some test) _ => !test.hasJump
  | _ => true

theorem Expr.testsWithoutJumps_iff (e : Expr) :
    e.TestsWithoutJumps ↔ e.walk.all isPlainTest = true := by
  simp only [TestsWithoutJumps, ← hasJump_eq_false_iff, List.all_eq_true]
  constructor
  · intro h node hnode
    cases node with
    | loop test body =>
      cases test with
      | none => rfl
      | some test => simp only [isPlainTest, h test body hnode, Bool.not_false]
    | _ => rfl
  · intro h test body hloop
    simpa only [isPlainTest, Bool.not_eq_true'] using h _ hloop

instance (script : Script) : Decidable script.TestsWithoutJumps :=
  decidable_of_iff (script.statements.all fun s => s.expression.walk.all Expr.isPlainTest) (by
    simp only [List.all_eq_true, Script.TestsWithoutJumps, Expr.testsWithoutJumps_iff])

/-- The script whose repetitions take the jumps of their tests themselves. -/
def Script.encloseTests (script : Script) : Script :=
  { script with
    statements := script.statements.map fun s =>
      { s with expression := s.expression.encloseTests } }

theorem Script.encloseTests_eq_self {script : Script} (h : script.TestsWithoutJumps) :
    script.encloseTests = script := by
  have hstatement (s : Statement) (hs : s ∈ script.statements) :
      { s with expression := s.expression.encloseTests } = s := by
    rw [Expr.encloseTests_eq_self (h s hs)]
  rw [encloseTests, List.map_congr_left hstatement, List.map_id']

/-! ### Evaluations that do not end with a jump -/

section WithoutJumps

open Eval

variable {α : Type}

/-- The evaluation never ends with a jump. -/
def Eval.Jumpless (x : Eval σ α) : Prop :=
  ∀ w j w', x w ≠ .error (.jump j) w'

namespace Eval.Jumpless

theorem bind {β : Type} {x : Eval σ α} {f : α → Eval σ β} (hx : Jumpless x)
    (hf : ∀ a, Jumpless (f a)) : Jumpless (x >>= f) := by
  intro w j w' h
  cases hr : x w with
  | ok a w₁ =>
    rw [bind_of_ok hr] at h
    exact hf a w₁ j w' h
  | error e w₁ =>
    rw [bind_of_error hr] at h
    cases h
    exact hx w j w' hr

theorem ofRun (x : Run σ α) : Jumpless (ofRun x) := by
  rintro ⟨scopes, ledger⟩ j w' h
  simp only [Eval.ofRun] at h
  cases hr : x ledger <;> rw [hr] at h <;> cases h

theorem ofExcept (result : Except Error α) : Jumpless (ofExcept result : Eval σ α) := by
  rintro w j w' h
  cases result <;> cases h

theorem framed {x : Eval σ α} (hx : Jumpless x) : Jumpless (framed x) := by
  rintro ⟨scopes, ledger⟩ j w' h
  simp only [Eval.framed] at h
  cases hr : x ⟨scopes.push, ledger⟩ <;> rw [hr] at h <;> cases h
  exact hx _ _ _ hr

/-- A loop takes every jump of its body. -/
theorem loopBody (x : Eval σ α) : Jumpless (loopBody x) := by
  intro w j w' h
  rw [loopBody_eq] at h
  rcases hr : x w with ⟨a, w₁⟩ | ⟨i | e | _, w₁⟩ <;> rw [hr] at h
  · cases h
  · cases i <;> cases h
  · cases h
  · cases h

theorem repeatWhile {x : Eval σ Bool} (hx : Jumpless x) (n : Nat) :
    Jumpless (repeatWhile x n) := by
  induction n with
  | zero =>
    intro w j w' h
    cases h
  | succ n ih =>
    refine hx.bind fun goesOn => ?_
    cases goesOn with
    | true => exact ih
    | false => exact ofExcept (.ok ())

theorem compatible (setting : Setting ι σ) :
    Compatible setting setting fun _ x _ => Jumpless x where
  pure a := ofExcept (.ok a)
  bind := bind
  ofExcept := ofExcept
  readName name w := ofExcept (w.scopes.get name) w
  define _ _ _ _ _ h := nomatch h
  assign name value w j w' h := by
    rw [assign_eq] at h
    cases hr : w.scopes.assign name value <;> rw [hr] at h <;> cases h
  call _ _ := ofRun _
  checkpoint := ofRun _
  checkScope w := ofRun (Run.checkScopeDepth setting.limits w.scopes.depth) w
  framed := framed
  loopBody _ := loopBody _

theorem congruence (setting : Setting ι σ) (allowance : Nat) :
    Congruence setting setting allowance allowance Eq (fun _ x _ => Jumpless x)
      (fun x _ => Jumpless x) where
  toCompatible := compatible setting
  deeper hd := congrArg Nat.succ hd
  enter _ hx := ((ofRun _).bind fun _ => ofRun _).bind fun _ => hx
  weaken := id
  repeatWhile part part' test body body' htest hbody :=
    repeatWhile ((compatible setting).round part part' test body body' htest hbody) allowance

end Eval.Jumpless

/-- Without a jump in it, an expression does not end with one. -/
theorem eval_jumpless (setting : Setting ι σ) (allowance depth : Nat) {e : Expr}
    (h : e.hasJump = false) : Eval.Jumpless (eval setting allowance depth e) :=
  (Eval.Jumpless.congruence setting allowance).eval e
    (fun j hj => absurd hj ((Expr.hasJump_eq_false_iff e).mp h j)) depth depth rfl

end WithoutJumps

end Covenant
