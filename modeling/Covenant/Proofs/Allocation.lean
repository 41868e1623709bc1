import Covenant.Proofs.AllocationText
import Covenant.Proofs.Integers
import Covenant.Proofs.Rendering
import Covenant.Proofs.Runs

/-!
# What the script of a resource allocation does

The script for an allocation binds the request, asks for the balance of the pool and decides. With
the limits by default none of its parts runs into a limit, so that all it does is what
`Allocation.settle` says in terms of calls: the statements lead there one by one, whatever the host
answers.

## Main definitions

* `Allocation.refuses` : the test at a balance.
* `Allocation.settle`, `Allocation.settleAt`, `Allocation.grant` : the calls and the results.

## Main results

* `Allocation.leads_decision` : the choice does what `settleAt` says.
* `Allocation.interpret_settle` : the script does what `settle` says.
-/

namespace Covenant

open Eval

variable {ι σ : Type}

namespace BinaryOp

theorem apply_less (v v' : Value) :
    less.apply v v' = (compare less v v').map fun order => .boolean (order == .lt) := by
  rw [apply]
  cases compare less v v' <;> rfl

end BinaryOp

namespace Allocation

theorem expr_requested (field : String) :
    (requested field).expr = .property (.ref "request") field := rfl

theorem expr_request (resource amount recipient : Value) :
    (request resource amount recipient).expr =
      .declare "request" (.object [("resource", resource.sourceExpr), ("amount", amount.sourceExpr),
        ("recipient", recipient.sourceExpr)]) := rfl

theorem expr_balance (pool : Value) :
    (balance pool).expr = .declare "available" (.call "economic.get_balance"
      [pool.sourceExpr, (requested "resource").expr]) := rfl

theorem expr_refusal : refusal.expr = .binary
    (.binary (requested "amount").expr .lessEqual (.literal (.integer 0))) .or
    (.binary available.expr .less (requested "amount").expr) := rfl

theorem expr_transfer (pool : Value) :
    (transfer pool).expr = .call "economic.transfer" [pool.sourceExpr,
      (requested "recipient").expr, (requested "resource").expr, (requested "amount").expr] := rfl

theorem expr_report (flag : Bool) (left : Parser.Phrase .whole) :
    (report flag left).expr = .object [("allocated", .literal (.boolean flag)),
      ("requested", (requested "amount").expr), ("available", left.expr)] := rfl

theorem expr_decision (pool : Value) :
    (decision pool).expr = .cond refusal.expr
      (.block [(report false (alone available)).expr])
      (some (.block [(transfer pool).expr, (report true remainder).expr])) := rfl

theorem statements_eq (a : Allocation) : a.statements =
    [(request (.string a.resource) (.integer a.amount) (.string a.recipient)).expr,
      .block [(balance (.string a.pool)).expr, (decision (.string a.pool)).expr]] := rfl

/-! ### Evaluation -/

variable (a : Allocation)

/-- The fields of the request. -/
def fields : Table Value :=
  [("amount", .integer a.amount), ("recipient", .string a.recipient),
    ("resource", .string a.resource)]

/-- The result of an allocation. -/
def result (flag : Bool) (left : Value) : Value :=
  .object [("allocated", .boolean flag), ("available", left), ("requested", .integer a.amount)]

/-- Whether an allocation is refused at a balance: an amount that is not positive is, and any other
if the balance compares as less. -/
def refuses (v : Value) : Except Error Bool :=
  if a.amount ≤ 0 then .ok true
  else (BinaryOp.compare .less v (.integer a.amount)).map (· == .lt)

/-- What the balance of the pool is asked for. -/
def balanceArgs : List Value :=
  [.string a.pool, .string a.resource]

/-- What is transferred. -/
def transferArgs : List Value :=
  [.string a.pool, .string a.recipient, .string a.resource, .integer a.amount]

/-- The transfer, and the result with what is left of the balance. -/
def grant (setting : Setting ι σ) (v : Value) : Run σ Value := do
  let _ ← Run.call setting "economic.transfer" a.transferArgs
  Run.ofExcept ((BinaryOp.subtract.apply v (.integer a.amount)).map (a.result true))

/-- The decision at a balance. -/
def settleAt (setting : Setting ι σ) (v : Value) : Run σ Value := do
  let refused ← Run.ofExcept (a.refuses v)
  Run.checkpoint setting.limits
  if refused then return a.result false v
  else a.grant setting v

/-- The balance, and the decision at it. -/
def settle (setting : Setting ι σ) : Run σ Value := do
  Run.checkpoint setting.limits
  let v ← Run.call setting "economic.get_balance" a.balanceArgs
  a.settleAt setting v

/-- The names that a script for an allocation has bound when it decides. -/
structure Bound (v : Value) (scopes : Scopes Value) : Prop where
  request : scopes.get "request" = .ok (.object a.fields)
  available : scopes.get "available" = .ok v

variable {a} {setting : Setting ι σ} {allowance depth n m : Nat} {w : World σ} {v : Value}

theorem Bound.push {scopes : Scopes Value} (h : a.Bound v scopes) : a.Bound v scopes.push :=
  ⟨(scopes.get_push _).trans h.request, (scopes.get_push _).trans h.available⟩

theorem insert_fields : Table.insert "recipient" (.string a.recipient)
    (Table.insert "amount" (.integer a.amount)
      (Table.insert "resource" (.string a.resource) [])) = a.fields := rfl

theorem insert_result (flag amount left : Value) : Table.insert "available" left
    (Table.insert "requested" amount (Table.insert "allocated" flag [])) =
      [("allocated", flag), ("available", left), ("requested", amount)] := rfl

theorem leads_request (hdepth : depth + 5 ≤ setting.limits.maxExpressionDepth.toNat) :
    Leads setting.limits n (n + 8) (eval setting allowance depth
        (request (.string a.resource) (.integer a.amount) (.string a.recipient)).expr) w
      (.ok (.object a.fields) ⟨w.scopes.define "request" (.object a.fields), w.ledger⟩) := by
  rw [expr_request]
  refine .declare (by omega) (.object (by omega) ?_)
  refine .bind (.literal (by omega)) ?_
  refine .bind (Value.leads_integer (by omega) _ _ _) ?_
  refine .bind (.literal (by omega)) ?_
  rw [← insert_fields]
  exact .pure _ _

theorem leads_requested (hdepth : depth + 2 ≤ setting.limits.maxExpressionDepth.toNat)
    (hrequest : w.scopes.get "request" = .ok (.object a.fields)) (field : String) :
    Leads setting.limits n (n + 2) (eval setting allowance depth (requested field).expr) w
      (.ok ((Table.find? field a.fields).getD .null) w) := by
  rw [expr_requested]
  exact .property (by omega) (.ref (by omega) hrequest)

theorem leads_isEmpty (hdepth : depth + 3 ≤ setting.limits.maxExpressionDepth.toNat)
    (hbound : a.Bound v w.scopes) :
    Leads setting.limits n (n + 4) (eval setting allowance depth isEmpty.expr) w
      (.ok (.boolean (decide (a.amount ≤ 0))) w) :=
  .binary_value (by omega) rfl (leads_requested (by omega) hbound.request "amount")
    (.literal (by omega)) (BinaryOp.lessEqual_integer _ _)

theorem leads_isShort (hdepth : depth + 3 ≤ setting.limits.maxExpressionDepth.toNat)
    (hbound : a.Bound v w.scopes) :
    Leads setting.limits n (n + 4) (eval setting allowance depth isShort.expr) w
      (Eval.ofExcept (BinaryOp.less.apply v (.integer a.amount)) w) :=
  .binary (by omega) rfl (.ref (by omega) hbound.available)
    (leads_requested (by omega) hbound.request "amount")

theorem leads_remainder (hdepth : depth + 3 ≤ setting.limits.maxExpressionDepth.toNat)
    (hbound : a.Bound v w.scopes) :
    Leads setting.limits n (n + 4) (eval setting allowance depth remainder.expr) w
      (Eval.ofExcept (BinaryOp.subtract.apply v (.integer a.amount)) w) :=
  .binary (by omega) rfl (.ref (by omega) hbound.available)
    (leads_requested (by omega) hbound.request "amount")

/-- The test refuses an amount that is not positive, and leaves any other to the comparison. -/
theorem leads_refusal (hdepth : depth + 4 ≤ setting.limits.maxExpressionDepth.toNat)
    (hbound : a.Bound v w.scopes) :
    Leads setting.limits n (n + 9) (eval setting allowance depth refusal.expr) w
      (Eval.ofExcept ((a.refuses v).map .boolean) w) := by
  have hempty : Leads setting.limits (n + 1) (n + 5) (eval setting allowance (depth + 1)
      isEmpty.expr) w (.ok (.boolean (decide (a.amount ≤ 0))) w) :=
    leads_isEmpty (by omega) hbound
  have hshort : Leads setting.limits (n + 5) (n + 9) (eval setting allowance (depth + 1)
      isShort.expr) w (Eval.ofExcept (BinaryOp.less.apply v (.integer a.amount)) w) :=
    leads_isShort (by omega) hbound
  rw [expr_refusal, refuses]
  split_ifs with hamount
  · rw [decide_eq_true hamount] at hempty
    exact (Leads.decided (by omega) rfl hempty rfl).mono (by omega)
  · rw [decide_eq_false hamount] at hempty
    rw [BinaryOp.apply_less] at hshort
    cases hcompare : BinaryOp.compare .less v (.integer a.amount) with
    | ok order =>
      rw [hcompare] at hshort
      exact .undecided (by omega) rfl hempty rfl hshort
    | error e =>
      rw [hcompare] at hshort
      exact .undecided_error (by omega) rfl hempty rfl hshort

theorem leads_report {flag : Bool} {left : Parser.Phrase .whole} {r : Except Error Value}
    (hdepth : depth + 3 ≤ setting.limits.maxExpressionDepth.toNat)
    (hbound : a.Bound v w.scopes)
    (hleft : Leads setting.limits (n + 4) m (eval setting allowance (depth + 1) left.expr) w
      (Eval.ofExcept r w)) :
    Leads setting.limits n m (eval setting allowance depth (report flag left).expr) w
      (Eval.ofExcept (r.map (a.result flag)) w) := by
  rw [expr_report]
  have hflag : Leads setting.limits (n + 1) (n + 2) (eval setting allowance (depth + 1)
      (.literal (.boolean flag))) w (.ok (.boolean flag) w) := .literal (by omega)
  have hamount : Leads setting.limits (n + 2) (n + 4) (eval setting allowance (depth + 1)
      (requested "amount").expr) w (.ok (.integer a.amount) w) :=
    leads_requested (by omega) hbound.request "amount"
  cases r with
  | ok value =>
    rw [Except.map, result, ← insert_result]
    refine .object (by omega) (.bind hflag (.bind hamount (.bind hleft ?_)))
    exact .pure _ _
  | error e => exact .object_error (by omega) (.bind hflag (.bind hamount (.bind_error hleft)))

theorem leads_transfer (hdepth : depth + 3 ≤ setting.limits.maxExpressionDepth.toNat)
    (hbound : a.Bound v w.scopes) :
    Leads setting.limits n (n + 8)
      (eval setting allowance depth (transfer (.string a.pool)).expr) w
      (ofRun (Run.call setting "economic.transfer" a.transferArgs) w) := by
  rw [expr_transfer]
  refine .callNode (by omega) (.bind (.literal (by omega)) ?_)
  refine .bind (leads_requested (by omega) hbound.request "recipient") ?_
  refine .bind (leads_requested (by omega) hbound.request "resource") ?_
  exact .bind (leads_requested (by omega) hbound.request "amount") (.pure _ _)

theorem leads_grant (hlimits : setting.limits = {}) (hdepth : depth ≤ 100)
    (hbound : a.Bound v w.scopes) :
    Leads setting.limits n (n + 16)
      (inTurn .null [eval setting allowance depth (transfer (.string a.pool)).expr,
        eval setting allowance depth (report true remainder).expr]) w
      (ofRun (a.grant setting v) w) := by
  obtain ⟨hexpressions, -, -⟩ := room_of_default hlimits
  rw [inTurn_pair]
  refine .bind_run (leads_transfer (by omega) hbound) (by omega) fun _ l => ?_
  have hleft : Leads setting.limits (n + 12) (n + 16) (eval setting allowance (depth + 1)
      remainder.expr) ⟨w.scopes, l⟩
      (Eval.ofExcept (BinaryOp.subtract.apply v (.integer a.amount)) ⟨w.scopes, l⟩) :=
    leads_remainder (by omega) hbound
  rw [ofRun_ofExcept]
  exact leads_report (by omega) hbound hleft

theorem leads_refused (hlimits : setting.limits = {}) (hdepth : depth ≤ 100)
    (hbound : a.Bound v w.scopes) :
    Leads setting.limits n (n + 5)
      (inTurn .null [eval setting allowance depth (report false (alone available)).expr]) w
      (.ok (a.result false v) w) := by
  obtain ⟨hexpressions, -, -⟩ := room_of_default hlimits
  have hbalance : Leads setting.limits (n + 4) (n + 5) (eval setting allowance (depth + 1)
      (alone available).expr) w (Eval.ofExcept (.ok v) w) := .ref (by omega) hbound.available
  rw [inTurn_singleton]
  exact leads_report (by omega) hbound hbalance

theorem leads_decision (hlimits : setting.limits = {}) (hdepth : depth ≤ 90)
    (hroom : w.scopes.depth ≤ 100) (hbound : a.Bound v w.scopes) :
    Leads setting.limits n (n + 27)
      (eval setting allowance depth (decision (.string a.pool)).expr) w
      (ofRun (a.settleAt setting v) w) := by
  obtain ⟨hexpressions, hscopes, hdeadline⟩ := room_of_default hlimits
  have hrefusal : Leads setting.limits (n + 1) (n + 10) (eval setting allowance (depth + 1)
      refusal.expr) w (Eval.ofExcept ((a.refuses v).map .boolean) w) :=
    leads_refusal (by omega) hbound
  rw [expr_decision, settleAt]
  cases hrefuses : a.refuses v with
  | error e =>
    rw [hrefuses] at hrefusal
    exact (Leads.cond_error (by omega) hrefusal).mono (by omega)
  | ok refused =>
    rw [hrefuses] at hrefusal
    cases refused with
    | true =>
      have hblock : Leads setting.limits (n + 10) (n + 16) (eval setting allowance (depth + 1)
          (.block [(report false (alone available)).expr])) w
          (ofRun (Run.checkpoint setting.limits >>= fun _ => return a.result false v) w) :=
        .block_run (by omega) hdeadline (by omega)
          (leads_refused hlimits (by omega) hbound.push) rfl
      exact (Leads.cond_yes (by omega) hrefusal hblock).mono (by omega)
    | false =>
      have hblock : Leads setting.limits (n + 10) (n + 27) (eval setting allowance (depth + 1)
          (.block [(transfer (.string a.pool)).expr, (report true remainder).expr])) w
          (ofRun (Run.checkpoint setting.limits >>= fun _ => a.grant setting v) w) :=
        .block_run (by omega) hdeadline (by omega) (leads_grant hlimits (by omega) hbound.push)
          (mapState_ofRun _ _)
      exact .cond_no (by omega) hrefusal hblock

theorem leads_balance (hdepth : depth + 4 ≤ setting.limits.maxExpressionDepth.toNat)
    (hrequest : w.scopes.get "request" = .ok (.object a.fields)) :
    Leads setting.limits n (n + 4) (eval setting allowance depth
        (.call "economic.get_balance" [.literal (.string a.pool), (requested "resource").expr])) w
      (ofRun (Run.call setting "economic.get_balance" a.balanceArgs) w) := by
  refine .callNode (by omega) (.bind (.literal (by omega)) ?_)
  exact .bind (leads_requested (by omega) hrequest "resource") (.pure _ _)

/-- The block asks for the balance and decides at it. -/
theorem leads_block (hlimits : setting.limits = {}) (hdepth : depth ≤ 80)
    (hroom : w.scopes.depth ≤ 90)
    (hrequest : w.scopes.get "request" = .ok (.object a.fields)) :
    Leads setting.limits n (n + 33) (eval setting allowance depth
        (.block [(balance (.string a.pool)).expr, (decision (.string a.pool)).expr])) w
      (ofRun (a.settle setting) w) := by
  obtain ⟨hexpressions, hscopes, hdeadline⟩ := room_of_default hlimits
  have hrequest' : w.scopes.push.get "request" = .ok (.object a.fields) :=
    (w.scopes.get_push _).trans hrequest
  have hcall : Leads setting.limits (n + 2) (n + 6) (eval setting allowance (depth + 2)
      (.call "economic.get_balance" [.literal (.string a.pool), (requested "resource").expr]))
      ⟨w.scopes.push, w.ledger⟩ (ofRun (Run.call setting "economic.get_balance" a.balanceArgs)
        ⟨w.scopes.push, w.ledger⟩) :=
    leads_balance (by omega) hrequest'
  cases hbalance : Run.call setting "economic.get_balance" a.balanceArgs w.ledger with
  | error e l =>
    have hresult : ofRun (Run.call setting "economic.get_balance" a.balanceArgs)
        ⟨w.scopes.push, w.ledger⟩ = .error (.fail e) ⟨w.scopes.push, l⟩ :=
      ofRun_of_error hbalance
    rw [hresult] at hcall
    refine (Leads.block_run (by omega) hdeadline (by omega)
      (.bind_error (.node (by omega) (.bind_error hcall))) ?_).mono (by omega)
    rw [ofRun_of_error (bind_of_error hbalance)]
    rfl
  | ok v l =>
    have hresult : ofRun (Run.call setting "economic.get_balance" a.balanceArgs)
        ⟨w.scopes.push, w.ledger⟩ = .ok v ⟨w.scopes.push, l⟩ :=
      ofRun_of_ok hbalance
    rw [hresult] at hcall
    have hbound : a.Bound v (w.scopes.push.define "available" v) :=
      ⟨(w.scopes.push.get_define_of_ne (by decide) v).trans hrequest',
        w.scopes.push.get_define_self _ v⟩
    have hdepth' : (w.scopes.push.define "available" v).depth = w.scopes.depth + 1 := rfl
    have hdecision : Leads setting.limits (n + 6) (n + 33) (eval setting allowance (depth + 1)
        (decision (.string a.pool)).expr) ⟨w.scopes.push.define "available" v, l⟩
        (ofRun (a.settleAt setting v) ⟨w.scopes.push.define "available" v, l⟩) :=
      leads_decision hlimits (by omega)
        (show (w.scopes.push.define "available" v).depth ≤ 100 by omega) hbound
    have hitems : Leads setting.limits (n + 1) (n + 33) (inTurn .null
        [eval setting allowance (depth + 1) (balance (.string a.pool)).expr,
          eval setting allowance (depth + 1) (decision (.string a.pool)).expr])
        ⟨w.scopes.push, w.ledger⟩
        (ofRun (a.settleAt setting v) ⟨w.scopes.push.define "available" v, l⟩) := by
      rw [inTurn_pair, expr_balance]
      exact .bind (.declare (by omega) hcall) hdecision
    refine Leads.block_run (by omega) hdeadline (by omega) hitems ?_
    rw [mapState_ofRun]
    simp only [ofRun, bind_of_ok hbalance]
    rfl

/-- The script for an allocation does what the decision at the balance does, whatever the host. -/
theorem interpret_settle (hlimits : setting.limits = {}) {script : Script}
    (hstatements : script.statements.map Statement.expression = a.statements)
    (allowance : Nat) (bindings : Table Value) (l : Ledger σ) (hsteps : l.steps = 0) :
    ∃ scopes k, interpret setting allowance script bindings l =
      mapState (World.withSteps · k) (ofRun (a.settle setting) ⟨scopes, l⟩) := by
  obtain ⟨hexpressions, -, -⟩ := room_of_default hlimits
  have hdepth := depth_globalsOf bindings
  set scopes := (globalsOf bindings).define "request" (.object a.fields) with hscopes
  have hdepth' : scopes.depth = 1 := ((globalsOf bindings).define_written _ _).depth.trans hdepth
  have hrequest : Leads setting.limits 0 8 (eval setting allowance 0
      (request (.string a.resource) (.integer a.amount) (.string a.recipient)).expr)
      ⟨globalsOf bindings, l⟩ (.ok (.object a.fields) ⟨scopes, l⟩) :=
    leads_request (by omega)
  have hblock : Leads setting.limits 8 41 (eval setting allowance 0
      (.block [(balance (.string a.pool)).expr, (decision (.string a.pool)).expr]))
      ⟨scopes, l⟩ (ofRun (a.settle setting) ⟨scopes, l⟩) :=
    leads_block hlimits (by omega) (show scopes.depth ≤ 90 by omega)
      ((globalsOf bindings).get_define_self _ _)
  have hall : Leads setting.limits 0 41
      (inTurn .null ((script.statements.map Statement.expression).map (eval setting allowance 0)))
      ⟨globalsOf bindings, l⟩ (ofRun (a.settle setting) ⟨scopes, l⟩) := by
    rw [hstatements, statements_eq, List.map_cons, List.map_cons, List.map_nil, inTurn_pair]
    exact .bind hrequest hblock
  obtain ⟨k, hk⟩ := interpret_of_leads hlimits hsteps (by decide) hall
  exact ⟨scopes, k, hk⟩

end Allocation

end Covenant
