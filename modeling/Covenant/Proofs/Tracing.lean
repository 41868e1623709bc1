import Covenant.Proofs.Counter
import Covenant.Proofs.Slots

/-!
# Evaluation with steps to spare

Where enough steps are left, the limit on steps has no part in how an evaluation ends. The
evaluation can then be followed node by node to its result, with the count of steps left open but
for a bound: one that holds before a construct gives one that holds behind it.

## Main definitions

* `Eval.Leads` : the result that an evaluation leads to, and bounds for the count of steps.

## Main results

* `Leads.bind`, `Leads.inScope` : results of evaluations from those of their parts.
* `Leads.node`, and one result for each construct but loops, jumps and assignments.
* `Leads.exists_eq` : the evaluation itself, if the bound is within the limit.
-/

namespace Covenant

variable {ι σ α β : Type}

/-! ### Names -/

namespace Scopes

theorem lookupIn?_hops (name : String) (frames : List (Frame α)) (i j : Nat) :
    (lookupIn? name frames i).map Prod.snd = (lookupIn? name frames j).map Prod.snd := by
  induction frames generalizing i j with
  | nil => rfl
  | cons frame frames ih =>
    simp only [lookupIn?]
    split
    · rfl
    · exact ih _ _

theorem get_eq (s : Scopes α) (name : String) :
    s.get name = ((s.lookup? name).map Prod.snd).elim (.error (.notDefined name)) .ok := by
  rw [get]
  rcases s.lookup? name with _ | ⟨hops, a⟩ <;> rfl

/-- A new frame binds nothing. -/
theorem get_push (s : Scopes α) (name : String) : s.push.get name = s.get name := by
  have hempty : lookupIn? name s.push.inner 0 = lookupIn? name s.inner 1 := rfl
  have hsame := lookupIn?_hops name s.inner 1 0
  rw [get_eq, get_eq, lookup?, lookup?, hempty]
  revert hsame
  rcases lookupIn? name s.inner 1 with _ | ⟨i, a⟩ <;>
    rcases lookupIn? name s.inner 0 with _ | ⟨j, b⟩ <;> intro hsame <;> cases hsame
  · simp [push, Function.comp_def]
  · rfl

theorem get_define_self (s : Scopes α) (name : String) (a : α) :
    (s.define name a).get name = .ok a := by
  obtain ⟨_ | ⟨frame, rest⟩, globals⟩ := s <;>
    simp [get, lookup?, lookupIn?, define]

theorem get_define_of_ne (s : Scopes α) {name other : String} (h : name ≠ other) (a : α) :
    (s.define name a).get other = s.get other := by
  obtain ⟨_ | ⟨frame, rest⟩, globals⟩ := s <;>
    simp [get, lookup?, lookupIn?, define, Frame.getElem?_insert, h]

end Scopes

/-! ### Evaluations and what they lead to -/

namespace Run

theorem checkpoint_of_active {limits : Limits} {l : Ledger σ} (hactive : l.cancelled = false)
    (hdeadline : limits.expired? = none) : checkpoint limits l = .ok () l := by
  rw [checkpoint, hactive, hdeadline]
  rfl

theorem checkpoint_of_cancelled {limits : Limits} {l : Ledger σ} (hcancelled : l.cancelled = true) :
    checkpoint limits l = .error .cancelled l := by
  rw [checkpoint, hcancelled]
  rfl

end Run

namespace Eval

/-- With no more than `n` steps counted before, and `m` steps within the limit, the evaluation leads
from the world to the result, but for the counts of steps in them, and counts no more than `m`. -/
structure Leads (limits : Limits) (n m : Nat) (x : Eval σ α) (w : World σ)
    (r : EStateM.Result Exit (World σ) α) : Prop where
  le : n ≤ m
  exists_of_le : ∀ i ≤ n, limits.Within m →
    ∃ j ≤ m, x (w.withSteps i) = mapState (World.withSteps · j) r

namespace Leads

variable {limits : Limits} {n m k : Nat} {x : Eval σ α} {w w₁ w₂ : World σ}
  {r : EStateM.Result Exit (World σ) α} {a : α} {exit : Exit}

/-- The evaluation, with a bound within the limit. -/
theorem exists_eq (h : Leads limits n m x w r) (hcount : w.ledger.steps ≤ n)
    (hlimit : limits.Within m) : ∃ j, x w = mapState (World.withSteps · j) r := by
  obtain ⟨j, -, hj⟩ := h.exists_of_le w.ledger.steps hcount hlimit
  exact ⟨j, hj⟩

theorem mono (h : Leads limits n m x w r) (hle : m ≤ k) : Leads limits n k x w r := by
  refine ⟨Nat.le_trans h.le hle, fun i hi hlimit => ?_⟩
  obtain ⟨j, hj, hx⟩ := h.exists_of_le i hi (hlimit.mono hle)
  exact ⟨j, Nat.le_trans hj hle, hx⟩

/-! ### Operations -/

/-- What does not look at the count of steps leads to its own result. -/
theorem of_uncounted (h : ∀ i, Follows (World.withSteps · i) x x) (w : World σ) :
    Leads limits n n x w (x w) :=
  ⟨Nat.le_refl n, fun i hi _ => ⟨i, hi, h i w⟩⟩

theorem pure (a : α) (w : World σ) : Leads limits n n (pure a) w (.ok a w) :=
  of_uncounted (fun _ => .pure a) w

theorem ofExcept (result : Except Error α) (w : World σ) :
    Leads limits n n (ofExcept result) w (Eval.ofExcept result w) :=
  of_uncounted (fun _ => ofExcept_follows _ result) w

theorem define (name : String) (value : Value) (w : World σ) :
    Leads limits n n (define name value) w (.ok () ⟨w.scopes.define name value, w.ledger⟩) :=
  of_uncounted (fun _ => define_follows _ name value) w

theorem readName (name : String) (w : World σ) :
    Leads limits n n (readName name) w (Eval.ofExcept (w.scopes.get name) w) :=
  of_uncounted (fun _ => readName_follows _ name) w

theorem call (setting : Setting ι σ) (name : String) (args : List Value) (w : World σ) :
    Leads limits n n (ofRun (Run.call setting name args)) w
      (ofRun (Run.call setting name args) w) :=
  of_uncounted (fun i => ofRun_follows _ (Run.call_uncounted i setting name args)) w

theorem checkpoint (w : World σ) :
    Leads limits n n (ofRun (Run.checkpoint limits)) w (ofRun (Run.checkpoint limits) w) :=
  of_uncounted (fun i => ofRun_follows (Ledger.withSteps · i)
    (Run.checkpoint_follows (Ledger.withSteps · i) (fun _ => rfl) limits)) w

theorem checkScope (w : World σ) :
    Leads limits n n (checkScope limits) w (Eval.checkScope limits w) :=
  of_uncounted
    (fun i w => ofRun_follows (Ledger.withSteps · i)
      (Run.checkScopeDepth_follows _ limits w.scopes.depth) w) w

/-! ### Compositions -/

theorem bind {f : α → Eval σ β} {r : EStateM.Result Exit (World σ) β}
    (hx : Leads limits n m x w (.ok a w₁)) (hf : Leads limits m k (f a) w₁ r) :
    Leads limits n k (x >>= f) w r := by
  refine ⟨Nat.le_trans hx.le hf.le, fun i hi hlimit => ?_⟩
  obtain ⟨j, hj, hx⟩ := hx.exists_of_le i hi (hlimit.mono hf.le)
  obtain ⟨j', hj', hf⟩ := hf.exists_of_le j hj hlimit
  exact ⟨j', hj', (bind_of_ok hx).trans hf⟩

theorem bind_error {f : α → Eval σ β} (hx : Leads limits n m x w (.error exit w₁)) :
    Leads limits n m (x >>= f) w (.error exit w₁) := by
  refine ⟨hx.le, fun i hi hlimit => ?_⟩
  obtain ⟨j, hj, hx⟩ := hx.exists_of_le i hi hlimit
  exact ⟨j, hj, bind_of_error hx⟩

/-- An evaluation that does to the ledger what a computation does, followed by one that does so. -/
theorem bind_run {f : α → Eval σ β} {run : Run σ α} {next : α → Run σ β}
    (hx : Leads limits n m x w (ofRun run w)) (hle : m ≤ k)
    (hf : ∀ a l, Leads limits m k (f a) ⟨w.scopes, l⟩ (ofRun (next a) ⟨w.scopes, l⟩)) :
    Leads limits n k (x >>= f) w (ofRun (run >>= next) w) := by
  cases hrun : run w.ledger with
  | ok a l =>
    have hnext : ofRun (run >>= next) w = ofRun (next a) ⟨w.scopes, l⟩ := by
      simp only [ofRun, bind_of_ok hrun]
    rw [ofRun_of_ok hrun] at hx
    rw [hnext]
    exact hx.bind (hf a l)
  | error e l =>
    rw [ofRun_of_error hrun] at hx
    rw [ofRun_of_error (bind_of_error hrun)]
    exact (bind_error hx).mono hle

theorem framed (h : Leads limits n m x ⟨w.scopes.push, w.ledger⟩ r) :
    Leads limits n m (framed x) w (mapState (fun w => ⟨w.scopes.pop, w.ledger⟩) r) := by
  refine ⟨h.le, fun i hi hlimit => ?_⟩
  obtain ⟨j, hj, h⟩ := h.exists_of_le i hi hlimit
  refine ⟨j, hj, ?_⟩
  have hx : x ⟨w.scopes.push, w.ledger.withSteps i⟩ = _ := h
  simp only [Eval.framed, World.withSteps, World.mapLedger, hx]
  cases r <;> rfl

theorem truth {context : String} {x : Eval σ Value} {flag : Bool}
    (h : Leads limits n m x w (.ok (.boolean flag) w₁)) :
    Leads limits n m (truth context x) w (.ok flag w₁) :=
  h.bind (ofExcept (.ok flag) w₁)

/-- A scope that may be opened closes again around what it leads to. -/
theorem inScope (hactive : w.ledger.cancelled = false) (hdeadline : limits.expired? = none)
    (hroom : w.scopes.depth + 1 ≤ limits.maxScopeDepth.toNat)
    (h : Leads limits n m x ⟨w.scopes.push, w.ledger⟩ r) :
    Leads limits n m (inScope limits x) w
      (mapState (fun w => ⟨w.scopes.pop, w.ledger⟩) r) := by
  have hpoint : ofRun (Run.checkpoint limits) w = .ok () w :=
    ofRun_of_ok (Run.checkpoint_of_active hactive hdeadline)
  have hscope : Eval.checkScope limits ⟨w.scopes.push, w.ledger⟩ =
      .ok () ⟨w.scopes.push, w.ledger⟩ := by
    have hdepth : w.scopes.push.depth = w.scopes.depth + 1 := rfl
    rw [Eval.checkScope, get_bind, Run.checkScopeDepth, hdepth, if_neg (Nat.not_lt.mpr hroom)]
    rfl
  rw [inScope_eq]
  exact bind (hpoint ▸ checkpoint w) (framed (bind (hscope ▸ checkScope _) h))

/-- No scope is opened in a cancelled run. -/
theorem inScope_cancelled (hcancelled : w.ledger.cancelled = true) :
    Leads limits n n (Eval.inScope limits x) w (.error (.fail .cancelled) w) := by
  have hpoint : ofRun (Run.checkpoint limits) w = .error (.fail .cancelled) w :=
    ofRun_of_error (Run.checkpoint_of_cancelled hcancelled)
  rw [inScope_eq]
  exact bind_error (hpoint ▸ checkpoint w)

/-! ### Nodes -/

section Nodes

variable {setting : Setting ι σ} {allowance depth : Nat}
  {r : EStateM.Result Exit (World σ) Value} {v : Value}

/-- A node leads to what its construct makes of its parts, one step later. -/
theorem node {e : Expr} (hdepth : depth + 1 ≤ setting.limits.maxExpressionDepth.toNat)
    (h : Leads setting.limits (n + 1) m
      (evalNode setting allowance (eval setting allowance (depth + 1)) e) w r) :
    Leads setting.limits n m (eval setting allowance depth e) w r := by
  have hle := h.le
  refine ⟨by omega, fun i hi hlimit => ?_⟩
  obtain ⟨j, hj, h⟩ := h.exists_of_le (i + 1) (by omega) hlimit
  have hsteps : (w.withSteps i).ledger.steps + 1 ≤ m := by
    simp only [World.withSteps_ledger, Ledger.withSteps_steps]
    omega
  have henter : enter setting (depth + 1) (w.withSteps i) = .ok () (w.withSteps (i + 1)) :=
    enter_of_within (hlimit.mono hsteps) hdepth
  refine ⟨j, hj, ?_⟩
  rw [eval_eq, bind_of_ok henter, h]

theorem literal (hdepth : depth + 1 ≤ setting.limits.maxExpressionDepth.toNat) :
    Leads setting.limits n (n + 1) (eval setting allowance depth (.literal v)) w (.ok v w) :=
  node hdepth (pure v w)

theorem ref {name : String} (hdepth : depth + 1 ≤ setting.limits.maxExpressionDepth.toNat)
    (h : w.scopes.get name = .ok v) :
    Leads setting.limits n (n + 1) (eval setting allowance depth (.ref name)) w (.ok v w) := by
  have hread : Leads setting.limits (n + 1) (n + 1) (Eval.readName name) w _ := readName name w
  rw [h] at hread
  exact node hdepth hread

theorem property {target : Expr} {name : String} {fields : Table Value}
    (hdepth : depth + 1 ≤ setting.limits.maxExpressionDepth.toNat)
    (h : Leads setting.limits (n + 1) m (eval setting allowance (depth + 1) target) w
      (.ok (.object fields) w₁)) :
    Leads setting.limits n m (eval setting allowance depth (.property target name)) w
      (.ok ((Table.find? name fields).getD .null) w₁) :=
  node hdepth (h.bind (ofExcept (.ok _) w₁))

theorem unary {op : UnaryOp} {operand : Expr} {operand' : Value}
    (hdepth : depth + 1 ≤ setting.limits.maxExpressionDepth.toNat)
    (h : Leads setting.limits (n + 1) m (eval setting allowance (depth + 1) operand) w
      (.ok operand' w₁)) :
    Leads setting.limits n m (eval setting allowance depth (.unary op operand)) w
      (Eval.ofExcept (op.apply operand') w₁) :=
  node hdepth (h.bind (ofExcept _ w₁))

/-- The result of an operation with both operands. -/
theorem binary {left right : Expr} {op : BinaryOp} {left' right' : Value}
    (hdepth : depth + 1 ≤ setting.limits.maxExpressionDepth.toNat) (hop : op.isLogical = false)
    (hleft : Leads setting.limits (n + 1) k (eval setting allowance (depth + 1) left) w
      (.ok left' w₁))
    (hright : Leads setting.limits k m (eval setting allowance (depth + 1) right) w₁
      (.ok right' w₂)) :
    Leads setting.limits n m (eval setting allowance depth (.binary left op right)) w
      (Eval.ofExcept (op.apply left' right') w₂) := by
  refine node hdepth ?_
  rw [evalNode, if_neg (by rw [hop]; decide)]
  exact hleft.bind (hright.bind (ofExcept _ w₂))

/-- The value of an operation that has one. -/
theorem binary_value {left right : Expr} {op : BinaryOp} {left' right' : Value}
    (hdepth : depth + 1 ≤ setting.limits.maxExpressionDepth.toNat) (hop : op.isLogical = false)
    (hleft : Leads setting.limits (n + 1) k (eval setting allowance (depth + 1) left) w
      (.ok left' w₁))
    (hright : Leads setting.limits k m (eval setting allowance (depth + 1) right) w₁
      (.ok right' w₂)) (hvalue : op.apply left' right' = .ok v) :
    Leads setting.limits n m (eval setting allowance depth (.binary left op right)) w
      (.ok v w₂) := by
  have hresult : Eval.ofExcept (op.apply left' right') w₂ = .ok v w₂ := by
    rw [hvalue]
    rfl
  rw [← hresult]
  exact binary hdepth hop hleft hright

/-- A left operand that decides a logical operation. -/
theorem decided {left right : Expr} {op : BinaryOp} {flag : Bool}
    (hdepth : depth + 1 ≤ setting.limits.maxExpressionDepth.toNat) (hop : op.isLogical = true)
    (hleft : Leads setting.limits (n + 1) m (eval setting allowance (depth + 1) left) w
      (.ok (.boolean flag) w₁)) (hdecides : op.decides flag = true) :
    Leads setting.limits n m (eval setting allowance depth (.binary left op right)) w
      (.ok (.boolean flag) w₁) := by
  refine node hdepth ?_
  rw [evalNode, if_pos hop, logical]
  refine hleft.truth.bind ?_
  rw [if_pos hdecides]
  exact pure (Value.boolean flag) w₁

/-- A left operand that does not decide a logical operation leaves it to the right one. -/
theorem undecided {left right : Expr} {op : BinaryOp} {flag flag' : Bool}
    (hdepth : depth + 1 ≤ setting.limits.maxExpressionDepth.toNat) (hop : op.isLogical = true)
    (hleft : Leads setting.limits (n + 1) k (eval setting allowance (depth + 1) left) w
      (.ok (.boolean flag) w₁)) (hdecides : op.decides flag = false)
    (hright : Leads setting.limits k m (eval setting allowance (depth + 1) right) w₁
      (.ok (.boolean flag') w₂)) :
    Leads setting.limits n m (eval setting allowance depth (.binary left op right)) w
      (.ok (.boolean flag') w₂) := by
  refine node hdepth ?_
  rw [evalNode, if_pos hop, logical]
  refine hleft.truth.bind ?_
  rw [if_neg (by rw [hdecides]; decide)]
  exact hright.truth.bind (pure (Value.boolean flag') w₂)

theorem undecided_error {left right : Expr} {op : BinaryOp} {flag : Bool}
    (hdepth : depth + 1 ≤ setting.limits.maxExpressionDepth.toNat) (hop : op.isLogical = true)
    (hleft : Leads setting.limits (n + 1) k (eval setting allowance (depth + 1) left) w
      (.ok (.boolean flag) w₁)) (hdecides : op.decides flag = false)
    (hright : Leads setting.limits k m (eval setting allowance (depth + 1) right) w₁
      (.error exit w₂)) :
    Leads setting.limits n m (eval setting allowance depth (.binary left op right)) w
      (.error exit w₂) := by
  refine node hdepth ?_
  rw [evalNode, if_pos hop, logical]
  refine hleft.truth.bind ?_
  rw [if_neg (by rw [hdecides]; decide)]
  exact bind_error (bind_error hright)

theorem declare {name : String} {e : Expr}
    (hdepth : depth + 1 ≤ setting.limits.maxExpressionDepth.toNat)
    (h : Leads setting.limits (n + 1) m (eval setting allowance (depth + 1) e) w (.ok v w₁)) :
    Leads setting.limits n m (eval setting allowance depth (.declare name e)) w
      (.ok v ⟨w₁.scopes.define name v, w₁.ledger⟩) :=
  node hdepth (h.bind ((define name v w₁).bind (pure v _)))

/-- A call with arguments that have their values. -/
theorem callNode {name : String} {args : List Expr} {values : List Value}
    (hdepth : depth + 1 ≤ setting.limits.maxExpressionDepth.toNat)
    (h : Leads setting.limits (n + 1) m
      (collect [] (args.map (eval setting allowance (depth + 1)))) w (.ok values w₁)) :
    Leads setting.limits n m (eval setting allowance depth (.call name args)) w
      (ofRun (Run.call setting name values) w₁) :=
  node hdepth (h.bind (call setting name values w₁))

theorem object {entries : List (String × Expr)} {fields : Table Value}
    (hdepth : depth + 1 ≤ setting.limits.maxExpressionDepth.toNat)
    (h : Leads setting.limits (n + 1) m
      (gather [] (entries.map fun entry => (entry.1, eval setting allowance (depth + 1) entry.2)))
      w (.ok fields w₁)) :
    Leads setting.limits n m (eval setting allowance depth (.object entries)) w
      (.ok (.object fields) w₁) :=
  node hdepth (h.bind (pure (Value.object fields) w₁))

theorem object_error {entries : List (String × Expr)}
    (hdepth : depth + 1 ≤ setting.limits.maxExpressionDepth.toNat)
    (h : Leads setting.limits (n + 1) m
      (gather [] (entries.map fun entry => (entry.1, eval setting allowance (depth + 1) entry.2)))
      w (.error exit w₁)) :
    Leads setting.limits n m (eval setting allowance depth (.object entries)) w
      (.error exit w₁) :=
  node hdepth (bind_error h)

/-- A choice goes on with the branch that its test tells. -/
theorem cond_yes {test yes : Expr} {no : Option Expr}
    (hdepth : depth + 1 ≤ setting.limits.maxExpressionDepth.toNat)
    (htest : Leads setting.limits (n + 1) k (eval setting allowance (depth + 1) test) w
      (.ok (.boolean true) w₁))
    (hyes : Leads setting.limits k m (eval setting allowance (depth + 1) yes) w₁ r) :
    Leads setting.limits n m (eval setting allowance depth (.cond test yes no)) w r :=
  node hdepth (htest.truth.bind hyes)

theorem cond_no {test yes no : Expr}
    (hdepth : depth + 1 ≤ setting.limits.maxExpressionDepth.toNat)
    (htest : Leads setting.limits (n + 1) k (eval setting allowance (depth + 1) test) w
      (.ok (.boolean false) w₁))
    (hno : Leads setting.limits k m (eval setting allowance (depth + 1) no) w₁ r) :
    Leads setting.limits n m (eval setting allowance depth (.cond test yes (some no))) w r :=
  node hdepth (htest.truth.bind hno)

theorem cond_error {test yes : Expr} {no : Option Expr}
    (hdepth : depth + 1 ≤ setting.limits.maxExpressionDepth.toNat)
    (htest : Leads setting.limits (n + 1) m (eval setting allowance (depth + 1) test) w
      (.error exit w₁)) :
    Leads setting.limits n m (eval setting allowance depth (.cond test yes no)) w
      (.error exit w₁) :=
  node hdepth (bind_error (bind_error htest))

/-- A block does to the ledger what its statements do, behind a checkpoint. -/
theorem block_run {items : List Expr} {run : Run σ Value}
    (hdepth : depth + 1 ≤ setting.limits.maxExpressionDepth.toNat)
    (hdeadline : setting.limits.expired? = none)
    (hroom : w.scopes.depth + 1 ≤ setting.limits.maxScopeDepth.toNat)
    (h : Leads setting.limits (n + 1) m
      (inTurn .null (items.map (eval setting allowance (depth + 1))))
      ⟨w.scopes.push, w.ledger⟩ r)
    (hrun : mapState (fun w => ⟨w.scopes.pop, w.ledger⟩) r = ofRun run w) :
    Leads setting.limits n m (eval setting allowance depth (.block items)) w
      (ofRun (Run.checkpoint setting.limits >>= fun _ => run) w) := by
  cases hcancelled : w.ledger.cancelled with
  | true =>
    rw [ofRun_of_error (bind_of_error (Run.checkpoint_of_cancelled hcancelled))]
    exact (node hdepth (inScope_cancelled hcancelled)).mono h.le
  | false =>
    have hblock : ofRun (Run.checkpoint setting.limits >>= fun _ => run) w = ofRun run w := by
      simp only [ofRun, bind_of_ok (Run.checkpoint_of_active hcancelled hdeadline)]
    rw [hblock, ← hrun]
    exact node hdepth (inScope hcancelled hdeadline hroom h)

end Nodes

end Leads

end Eval

end Covenant
