import Covenant.Interpreter
import Covenant.Proofs.Computation
import Covenant.Proofs.Expression

/-!
# Evaluation one node at a time

Evaluation enters a node and then does what its construct says with the evaluations of its parts.
The second half is written here as a function of the parts (`evalNode`), so that a fact about
evaluation can be proved once for each construct and carried through every tree.

Most such facts compare two evaluations: with different limits, with different hosts, of an
expression and of its folded form. A relation between evaluations that respects the few operations
that constructs are made of (`Compatible`, `Congruence`) respects every construct.

## Main definitions

* `evalNode` : what a construct does with the evaluations of its parts.
* `Expr.mapParts` : an expression with other parts.
* `Compatible` : a relation between evaluations that respects the operations of constructs.
* `Congruence` : one that also respects entering nodes and repetition.

## Main results

* `eval_eq` : evaluation is entering and `evalNode`.
* `Congruence.evalNode` : related parts make up related nodes.
* `Congruence.eval` : an expression evaluates to related evaluations.
-/

namespace Covenant

variable {ι σ ι' σ' : Type}

/-- The scopes with a new value for a name. In the global scope a name without a binding gets one;
elsewhere that is an error. -/
def Scopes.assign (scopes : Scopes Value) (name : String) (value : Value) :
    Except Error (Scopes Value) :=
  if scopes.isGlobal && (scopes.lookup? name).isNone then .ok (scopes.define name value)
  else scopes.set name value

/-! ### Constructs as operations on evaluations -/

namespace Eval

theorem assign_eq (name : String) (value : Value) (w : World σ) :
    assign name value w =
      match w.scopes.assign name value with
      | .ok scopes => .ok () ⟨scopes, w.ledger⟩
      | .error e => .error (.fail e) w := by
  simp only [assign, Scopes.assign]
  split
  · rfl
  · split <;> simp_all only

/-- The values of evaluations in turn, behind those already computed, the last of which comes
first. -/
def collect (done : List Value) : List (Eval σ Value) → Eval σ (List Value)
  | [] => return done.reverse
  | x :: rest => do
    let value ← x
    collect (value :: done) rest

/-- The value of the last of several evaluations in turn. -/
def inTurn (last : Value) : List (Eval σ Value) → Eval σ Value
  | [] => return last
  | x :: rest => do
    let value ← x
    inTurn value rest

/-- The fields that evaluations give in turn; of those with one key the last wins. -/
def gather (done : Table Value) : List (String × Eval σ Value) → Eval σ (Table Value)
  | [] => return done
  | (key, x) :: rest => do
    let value ← x
    gather (done.insert key value) rest

/-- The truth value that a construct needs. -/
def truth (context : String) (x : Eval σ Value) : Eval σ Bool := do
  ofExcept (requireBoolean context (← x))

/-- A logical operation, whose right operand is left alone if the left one decides. -/
def logical (op : BinaryOp) (left right : Eval σ Value) : Eval σ Value := do
  let a ← truth op.symbol left
  if op.decides a then return .boolean a
  let b ← truth op.symbol right
  return .boolean b

/-- Whether a repetition goes on, by its test if it has one. -/
def goesOn : Option (Eval σ Value) → Eval σ Bool
  | some test => truth "loop condition" test
  | none => pure true

/-- One round of a repetition. -/
def round (limits : Limits) (test : Option (Eval σ Value)) (body : Eval σ Value) :
    Eval σ Bool := do
  ofRun (Run.checkpoint limits)
  if ← goesOn test then loopBody body else return false

/-- A choice between evaluations; without the second a false test gives null. -/
def choice (test yes : Eval σ Value) (no : Option (Eval σ Value)) : Eval σ Value := do
  if ← truth "if condition" test then yes else no.getD (return .null)

theorem ofRun_of_ok {α : Type} {x : Run σ α} {w : World σ} {a : α} {l : Ledger σ}
    (h : x w.ledger = .ok a l) : ofRun x w = .ok a ⟨w.scopes, l⟩ := by
  simp only [ofRun, h]

theorem ofRun_of_error {α : Type} {x : Run σ α} {w : World σ} {e : Error} {l : Ledger σ}
    (h : x w.ledger = .error e l) : ofRun x w = .error (.fail e) ⟨w.scopes, l⟩ := by
  simp only [ofRun, h]

/-- Whether a loop goes on, by how its body ended. -/
def takeJump {α : Type} : EStateM.Result Exit (World σ) α → EStateM.Result Exit (World σ) Bool
  | .ok _ w => .ok true w
  | .error (.jump .continue_) w => .ok true w
  | .error (.jump .break_) w => .ok false w
  | .error e w => .error e w

theorem loopBody_eq {α : Type} (x : Eval σ α) (w : World σ) : loopBody x w = takeJump (x w) := by
  simp only [loopBody]
  split <;> simp_all [takeJump]

@[simp] theorem reached_takeJump {α : Type} (r : EStateM.Result Exit (World σ) α) :
    reached (takeJump r) = reached r := by
  unfold takeJump
  split <;> rfl

theorem takeJump_mapState {α : Type} (f : World σ → World σ')
    (r : EStateM.Result Exit (World σ) α) :
    takeJump (mapState f r) = mapState f (takeJump r) := by
  rcases r with ⟨a, w⟩ | ⟨j | e | _, w⟩
  · rfl
  · cases j <;> rfl
  · rfl
  · rfl

/-- The check that no more frames are open than the limit allows. -/
def checkScope (limits : Limits) : Eval σ Unit := do
  ofRun (Run.checkScopeDepth limits (← get).scopes.depth)

/-- Evaluates with one more frame open, which is closed however the evaluation ends. -/
def framed {α : Type} (x : Eval σ α) : Eval σ α :=
  fun ⟨scopes, ledger⟩ => mapState (fun w => ⟨w.scopes.pop, w.ledger⟩) (x ⟨scopes.push, ledger⟩)

/-- A scope is a checkpoint and a frame, whose depth is checked once it is open. -/
theorem inScope_eq {α : Type} (limits : Limits) (x : Eval σ α) :
    inScope limits x =
      (ofRun (Run.checkpoint limits) >>= fun _ =>
        framed (checkScope limits >>= fun _ => x)) := by
  simp only [inScope, checkScope, bind_assoc]
  congr 1
  funext _ ⟨scopes, ledger⟩
  simp only [framed]
  split <;> simp_all only [mapState]

end Eval

open Eval

/-- What a construct does with the evaluations of its parts. -/
def evalNode (setting : Setting ι σ) (allowance : Nat) (part : Expr → Eval σ Value) :
    Expr → Eval σ Value
  | .literal value => return value
  | .ref name => readName name
  | .binary left op right =>
    if op.isLogical then logical op (part left) (part right)
    else do
      let a ← part left
      let b ← part right
      ofExcept (op.apply a b)
  | .unary op operand => do
    let a ← part operand
    ofExcept (op.apply a)
  | .call name args => do
    let values ← collect [] (args.map part)
    ofRun (Run.call setting name values)
  | .block items => inScope setting.limits (inTurn .null (items.map part))
  | .cond test yes no => choice (part test) (part yes) (no.map part)
  | .loop test body => do
    repeatWhile (round setting.limits (test.map part) (part body)) allowance
    return .null
  | .assign target value => do
    let a ← part value
    assign target a
    return a
  | .declare name value => do
    let a ← part value
    define name a
    return a
  | .object entries => do
    return .object (← gather [] (entries.map fun entry => (entry.1, part entry.2)))
  | .array items => do
    return .array (← collect [] (items.map part))
  | .property target name => do
    let a ← part target
    ofExcept (a.property name)
  | .index target position => do
    let a ← part target
    let b ← part position
    ofExcept (a.index b)
  | .jump j => throw (.jump j)

/-! ### Evaluation is made of its nodes -/

section Equations

variable (setting : Setting ι σ) (allowance depth : Nat)

theorem evalAll_eq (done : List Value) (es : List Expr) :
    evalAll setting allowance depth done es =
      collect done (es.map (eval setting allowance depth)) := by
  induction es generalizing done with
  | nil => rfl
  | cons e rest ih => simp only [evalAll, List.map_cons, collect, ih]

theorem evalItems_eq (last : Value) (es : List Expr) :
    evalItems setting allowance depth last es =
      inTurn last (es.map (eval setting allowance depth)) := by
  induction es generalizing last with
  | nil => rfl
  | cons e rest ih => simp only [evalItems, List.map_cons, inTurn, ih]

theorem evalEntries_eq (done : Table Value) (entries : List (String × Expr)) :
    evalEntries setting allowance depth done entries =
      gather done (entries.map fun entry => (entry.1, eval setting allowance depth entry.2)) := by
  induction entries generalizing done with
  | nil => rfl
  | cons entry rest ih => simp only [evalEntries, List.map_cons, gather, ih]

/-- Evaluation enters a node and then does what its construct says. -/
theorem eval_eq (e : Expr) :
    eval setting allowance depth e =
      (enter setting (depth + 1) >>= fun _ =>
        evalNode setting allowance (eval setting allowance (depth + 1)) e) := by
  cases e with
  | call name args => simp only [eval, evalNode, evalAll_eq]
  | block items => simp only [eval, evalNode, evalItems_eq]
  | object entries => simp only [eval, evalNode, evalEntries_eq]
  | array items => simp only [eval, evalNode, evalAll_eq]
  | binary left op right => simp only [eval, evalNode, logical, truth, bind_assoc]
  | cond test yes no =>
    cases no <;> simp only [eval, evalNode, choice, truth, bind_assoc, Option.map, Option.getD]
  | loop test body =>
    cases test <;> simp only [eval, evalNode, Eval.round, goesOn, truth, bind_assoc, Option.map]
  | _ => rfl

theorem evalStatements_eq (last : Value) (statements : List Statement) :
    evalStatements setting allowance last statements =
      inTurn last (statements.map fun s => eval setting allowance 0 s.expression) := by
  induction statements generalizing last with
  | nil => rfl
  | cons s rest ih => simp only [evalStatements, evaluate, List.map_cons, inTurn, ih]

end Equations

/-- An expression with other parts. -/
def Expr.mapParts (f : Expr → Expr) : Expr → Expr
  | literal value => literal value
  | ref name => ref name
  | binary left op right => binary (f left) op (f right)
  | unary op operand => unary op (f operand)
  | call name args => call name (args.map f)
  | block items => block (items.map f)
  | cond test yes no => cond (f test) (f yes) (no.map f)
  | loop test body => loop (test.map f) (f body)
  | assign target value => assign target (f value)
  | declare name value => declare name (f value)
  | object entries => object (entries.map fun entry => (entry.1, f entry.2))
  | array items => array (items.map f)
  | property target name => property (f target) name
  | index target position => index (f target) (f position)
  | jump j => jump j

/-- A node with other parts does the same with their evaluations. -/
theorem evalNode_mapParts (setting : Setting ι σ) (allowance : Nat) (f : Expr → Expr)
    (part : Expr → Eval σ Value) (e : Expr) :
    evalNode setting allowance part (e.mapParts f) =
      evalNode setting allowance (fun c => part (f c)) e := by
  cases e <;> simp [evalNode, Expr.mapParts, Function.comp_def]

/-! ### Relations between evaluations -/

/-- A relation between evaluations under two settings that respects the operations constructs are
made of. -/
structure Compatible (setting : Setting ι σ) (setting' : Setting ι' σ')
    (R : (α : Type) → Eval σ α → Eval σ' α → Prop) : Prop where
  pure {α : Type} (a : α) : R α (pure a) (pure a)
  bind {α β : Type} {x : Eval σ α} {x' : Eval σ' α} {f : α → Eval σ β} {f' : α → Eval σ' β} :
    R α x x' → (∀ a, R β (f a) (f' a)) → R β (x >>= f) (x' >>= f')
  ofExcept {α : Type} (result : Except Error α) : R α (ofExcept result) (ofExcept result)
  readName (name : String) : R Value (readName name) (readName name)
  define (name : String) (value : Value) : R Unit (define name value) (define name value)
  assign (name : String) (value : Value) : R Unit (assign name value) (assign name value)
  call (name : String) (args : List Value) :
    R Value (ofRun (Run.call setting name args)) (ofRun (Run.call setting' name args))
  checkpoint :
    R Unit (ofRun (Run.checkpoint setting.limits)) (ofRun (Run.checkpoint setting'.limits))
  checkScope : R Unit (checkScope setting.limits) (checkScope setting'.limits)
  framed {x : Eval σ Value} {x' : Eval σ' Value} :
    R Value x x' → R Value (framed x) (framed x')
  loopBody {x : Eval σ Value} {x' : Eval σ' Value} :
    R Value x x' → R Bool (loopBody x) (loopBody x')

namespace Compatible

variable {setting : Setting ι σ} {setting' : Setting ι' σ'}
  {R : (α : Type) → Eval σ α → Eval σ' α → Prop}

theorem truth (h : Compatible setting setting' R) (context : String) {x : Eval σ Value}
    {x' : Eval σ' Value} (hx : R Value x x') : R Bool (truth context x) (truth context x') :=
  h.bind hx fun _ => h.ofExcept _

theorem collect (h : Compatible setting setting' R) {γ : Type} (part : γ → Eval σ Value)
    (part' : γ → Eval σ' Value) (cs : List γ) (hparts : ∀ c ∈ cs, R Value (part c) (part' c))
    (done : List Value) :
    R (List Value) (collect done (cs.map part)) (collect done (cs.map part')) := by
  induction cs generalizing done with
  | nil => exact h.pure _
  | cons c rest ih =>
    exact h.bind (hparts c List.mem_cons_self) fun _ =>
      ih (fun c hc => hparts c (List.mem_cons_of_mem _ hc)) _

theorem inTurn (h : Compatible setting setting' R) {γ : Type} (part : γ → Eval σ Value)
    (part' : γ → Eval σ' Value) (cs : List γ) (hparts : ∀ c ∈ cs, R Value (part c) (part' c))
    (last : Value) : R Value (inTurn last (cs.map part)) (inTurn last (cs.map part')) := by
  induction cs generalizing last with
  | nil => exact h.pure _
  | cons c rest ih =>
    exact h.bind (hparts c List.mem_cons_self) fun _ =>
      ih (fun c hc => hparts c (List.mem_cons_of_mem _ hc)) _

theorem gather (h : Compatible setting setting' R) {γ : Type} (part : γ → Eval σ Value)
    (part' : γ → Eval σ' Value) (cs : List (String × γ))
    (hparts : ∀ c ∈ cs, R Value (part c.2) (part' c.2)) (done : Table Value) :
    R (Table Value) (gather done (cs.map fun c => (c.1, part c.2)))
      (gather done (cs.map fun c => (c.1, part' c.2))) := by
  induction cs generalizing done with
  | nil => exact h.pure _
  | cons c rest ih =>
    exact h.bind (hparts c List.mem_cons_self) fun _ =>
      ih (fun c hc => hparts c (List.mem_cons_of_mem _ hc)) _

theorem inScope (h : Compatible setting setting' R) {x : Eval σ Value} {x' : Eval σ' Value}
    (hx : R Value x x') : R Value (inScope setting.limits x) (inScope setting'.limits x') := by
  rw [inScope_eq, inScope_eq]
  exact h.bind h.checkpoint fun _ => h.framed (h.bind h.checkScope fun _ => hx)

/-- Related tests and bodies make up related rounds. -/
theorem round (h : Compatible setting setting' R) (part : Expr → Eval σ Value)
    (part' : Expr → Eval σ' Value) (test : Option Expr) (body : Eval σ Value)
    (body' : Eval σ' Value) (htest : ∀ t ∈ test, R Value (part t) (part' t))
    (hbody : R Value body body') :
    R Bool (round setting.limits (test.map part) body)
      (round setting'.limits (test.map part') body') := by
  refine h.bind h.checkpoint fun _ => h.bind ?_ fun goesOn => ?_
  · cases test with
    | none => exact h.pure _
    | some t => exact h.truth _ (htest t rfl)
  · cases goesOn with
    | true => exact h.loopBody hbody
    | false => exact h.pure _

end Compatible

/-- A relation between evaluations under two settings and allowances that respects every construct.
`E` is the relation between the evaluations of whole expressions, each of which enters a node, and
`D` that between the depths at which they stand. -/
structure Congruence (setting : Setting ι σ) (setting' : Setting ι' σ')
    (allowance allowance' : Nat) (D : Nat → Nat → Prop)
    (R : (α : Type) → Eval σ α → Eval σ' α → Prop)
    (E : Eval σ Value → Eval σ' Value → Prop) : Prop
    extends Compatible setting setting' R where
  deeper {d d' : Nat} : D d d' → D (d + 1) (d' + 1)
  enter {d d' : Nat} {x : Eval σ Value} {x' : Eval σ' Value} : D d d' → R Value x x' →
    E (enter setting d >>= fun _ => x) (enter setting' d' >>= fun _ => x')
  weaken {x : Eval σ Value} {x' : Eval σ' Value} : E x x' → R Value x x'
  repeatWhile (part : Expr → Eval σ Value) (part' : Expr → Eval σ' Value) (test : Option Expr)
    {body : Eval σ Value} {body' : Eval σ' Value} :
    (∀ t ∈ test, E (part t) (part' t)) → E body body' →
    R Unit (repeatWhile (round setting.limits (test.map part) body) allowance)
      (repeatWhile (round setting'.limits (test.map part') body') allowance')

namespace Congruence

variable {setting : Setting ι σ} {setting' : Setting ι' σ'} {allowance allowance' : Nat}
  {D : Nat → Nat → Prop} {R : (α : Type) → Eval σ α → Eval σ' α → Prop}
  {E : Eval σ Value → Eval σ' Value → Prop}

/-- Related parts make up related nodes, if jumps are related to themselves. -/
theorem evalNode (h : Congruence setting setting' allowance allowance' D R E)
    (part : Expr → Eval σ Value) (part' : Expr → Eval σ' Value) (e : Expr)
    (hjump : ∀ j, e = .jump j → R Value (throw (.jump j)) (throw (.jump j)))
    (hparts : ∀ c ∈ e.children, E (part c) (part' c)) :
    R Value (evalNode setting allowance part e) (evalNode setting' allowance' part' e) := by
  have hweak (c : Expr) (hc : c ∈ e.children) : R Value (part c) (part' c) :=
    h.weaken (hparts c hc)
  cases e with
  | literal value => exact h.pure _
  | ref name => exact h.readName _
  | binary left op right =>
    have hleft := hweak left (by simp [Expr.children])
    have hright := hweak right (by simp [Expr.children])
    simp only [Covenant.evalNode]
    split
    · refine h.bind (h.truth _ hleft) fun a => ?_
      cases op.decides a with
      | true => exact h.pure _
      | false => exact h.bind (h.truth _ hright) fun _ => h.pure _
    · exact h.bind hleft fun _ => h.bind hright fun _ => h.ofExcept _
  | unary op operand =>
    exact h.bind (hweak operand (by simp [Expr.children])) fun _ => h.ofExcept _
  | call name args => exact h.bind (h.collect part part' args hweak _) fun _ => h.call _ _
  | block items => exact h.inScope (h.inTurn part part' items hweak _)
  | cond test yes no =>
    refine h.bind (h.truth _ (hweak test (by simp [Expr.children]))) fun flag => ?_
    cases flag with
    | true => exact hweak yes (by simp [Expr.children])
    | false =>
      cases no with
      | none => exact h.pure _
      | some e => exact hweak e (by simp [Expr.children])
  | loop test body =>
    refine h.bind (h.repeatWhile part part' test ?_ (hparts body (by simp [Expr.children])))
      fun _ => h.pure _
    rintro t rfl
    exact hparts t (by simp [Expr.children])
  | assign target value =>
    exact h.bind (hweak value (by simp [Expr.children])) fun _ =>
      h.bind (h.assign _ _) fun _ => h.pure _
  | declare name value =>
    exact h.bind (hweak value (by simp [Expr.children])) fun _ =>
      h.bind (h.define _ _) fun _ => h.pure _
  | object entries =>
    refine h.bind (h.gather part part' entries ?_ _) fun _ => h.pure _
    intro entry hentry
    exact hweak _ (List.mem_map_of_mem hentry)
  | array items => exact h.bind (h.collect part part' items hweak _) fun _ => h.pure _
  | property target name =>
    exact h.bind (hweak target (by simp [Expr.children])) fun _ => h.ofExcept _
  | index target position =>
    exact h.bind (hweak target (by simp [Expr.children])) fun _ =>
      h.bind (hweak position (by simp [Expr.children])) fun _ => h.ofExcept _
  | jump j => exact hjump j rfl

/-- An expression evaluates to related evaluations, if its jumps are related to themselves. -/
theorem eval (h : Congruence setting setting' allowance allowance' D R E) (e : Expr)
    (hjump : ∀ j, .jump j ∈ e.walk → R Value (throw (.jump j)) (throw (.jump j))) :
    ∀ d d', D d d' → E (eval setting allowance d e) (eval setting' allowance' d' e) := by
  induction e using Expr.childrenInd with
  | node e ih =>
    intro d d' hd
    have hpart (c : Expr) (hc : c ∈ e.children) :
        E (Covenant.eval setting allowance (d + 1) c)
          (Covenant.eval setting' allowance' (d' + 1) c) :=
      ih c hc (fun j hj => hjump j (Expr.mem_walk_of_mem_children hc hj)) _ _ (h.deeper hd)
    rw [eval_eq, eval_eq]
    refine h.enter (h.deeper hd) (h.evalNode _ _ e ?_ hpart)
    rintro j rfl
    exact hjump j (Expr.mem_walk_self _)

/-- Statements evaluate to related evaluations, if jumps are related to themselves. -/
theorem evalStatements (h : Congruence setting setting' allowance allowance' D R E)
    (hjump : ∀ j, R Value (throw (.jump j)) (throw (.jump j))) (hzero : D 0 0) (last : Value)
    (statements : List Statement) :
    R Value (evalStatements setting allowance last statements)
      (evalStatements setting' allowance' last statements) := by
  rw [evalStatements_eq, evalStatements_eq]
  exact h.inTurn _ _ statements
    (fun s _ => h.weaken (h.eval s.expression (fun j _ => hjump j) 0 0 hzero)) last

end Congruence

end Covenant
