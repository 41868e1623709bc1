import Covenant.Proofs.Integers
import Covenant.Proofs.PolicyText
import Covenant.Proofs.Runs

/-!
# What a proposal policy decides

The script of a proposal policy computes with 64-bit integers. Where the sums and products it forms
fit, they are the exact ones, and the script decides by the rule: the quorum is met if the share of
votes cast reaches the percentage of those eligible, and a proposal is approved if moreover some
votes decide and the share of approvals among them reaches its percentage.

## Main definitions

* `Votes` : the votes on a proposal.
* `Policy.quorumMet`, `Policy.approves`, `Policy.verdictOn` : the rule.
* `Policy.Countable` : the sums and products fit.
* `Policy.Tally` : the integers that the script computes.

## Main results

* `Policy.leads_block` : the block decides by the rule.
* `Policy.execute_verdict` : so does the script of the template, without output and without calls.
-/

namespace Covenant

open Eval

variable {ι σ : Type}

/-- The votes on a proposal, and how many may vote. -/
structure Votes where
  yes : Int64
  no : Int64
  abstain : Int64
  eligible : Int64

/-- The fields of the votes. -/
def Votes.fields (v : Votes) : Table Value :=
  [("abstain", .integer v.abstain), ("eligible", .integer v.eligible), ("no", .integer v.no),
    ("yes", .integer v.yes)]

namespace Policy

/-! ### The rule -/

section Rule

variable (p : Policy) (v : Votes)

/-- Enough of those eligible have cast a vote. -/
def quorumMet : Bool :=
  decide (v.eligible.toInt * p.quorum.toInt ≤
    (v.yes.toInt + v.no.toInt + v.abstain.toInt) * 100)

/-- The quorum is met, some votes decide, and enough of these are approvals. -/
def approves : Bool :=
  p.quorumMet v && decide (0 < v.yes.toInt + v.no.toInt) &&
    decide ((v.yes.toInt + v.no.toInt) * p.approval.toInt ≤ v.yes.toInt * 100)

/-- What the script returns. -/
def verdictOn : Value :=
  .object [("approved", .boolean (p.approves v)), ("proposal_type", .string p.proposalType),
    ("quorum_met", .boolean (p.quorumMet v))]

/-- The sums and products that the rule forms fit in 64 bits. -/
structure Countable : Prop where
  cast : Number.Fits (v.yes.toInt + v.no.toInt + v.abstain.toInt)
  turnout : Number.Fits ((v.yes.toInt + v.no.toInt + v.abstain.toInt) * 100)
  needed : Number.Fits (v.eligible.toInt * p.quorum.toInt)
  decided : Number.Fits (v.yes.toInt + v.no.toInt)
  support : Number.Fits (v.yes.toInt * 100)
  threshold : Number.Fits ((v.yes.toInt + v.no.toInt) * p.approval.toInt)

/-- The integers that the script computes. -/
structure Tally where
  decided : Int64
  cast : Int64
  turnout : Int64
  needed : Int64
  support : Int64
  threshold : Int64
  integer?_decided : Number.integer? (v.yes.toInt + v.no.toInt) = some decided
  integer?_cast : Number.integer? (decided.toInt + v.abstain.toInt) = some cast
  integer?_turnout : Number.integer? (cast.toInt * 100) = some turnout
  integer?_needed : Number.integer? (v.eligible.toInt * p.quorum.toInt) = some needed
  integer?_support : Number.integer? (v.yes.toInt * 100) = some support
  integer?_threshold : Number.integer? (decided.toInt * p.approval.toInt) = some threshold

end Rule

variable {p : Policy} {v : Votes}

/-- Where the sums and products fit, the script computes them. -/
theorem Countable.nonempty_tally (h : p.Countable v) : Nonempty (p.Tally v) := by
  obtain ⟨decided, hdecided, hdecided'⟩ := h.decided.exists_integer?
  obtain ⟨cast, hcast, hcast'⟩ := h.cast.exists_integer?
  obtain ⟨turnout, -, hturnout⟩ := h.turnout.exists_integer?
  obtain ⟨needed, -, hneeded⟩ := h.needed.exists_integer?
  obtain ⟨support, -, hsupport⟩ := h.support.exists_integer?
  obtain ⟨threshold, -, hthreshold⟩ := h.threshold.exists_integer?
  rw [← hcast] at hturnout
  rw [← hdecided] at hcast' hthreshold
  exact ⟨⟨decided, cast, turnout, needed, support, threshold, hdecided', hcast', hturnout, hneeded,
    hsupport, hthreshold⟩⟩

namespace Tally

variable (t : p.Tally v)

theorem toInt_decided : t.decided.toInt = v.yes.toInt + v.no.toInt :=
  Number.toInt_of_integer? t.integer?_decided

theorem toInt_cast : t.cast.toInt = v.yes.toInt + v.no.toInt + v.abstain.toInt := by
  rw [Number.toInt_of_integer? t.integer?_cast, t.toInt_decided]

/-- The test for the quorum. -/
theorem quorumMet_eq : decide (t.needed ≤ t.turnout) = p.quorumMet v := by
  rw [quorumMet, ← t.toInt_cast, ← Number.toInt_of_integer? t.integer?_turnout,
    ← Number.toInt_of_integer? t.integer?_needed]
  exact decide_eq_decide.mpr Int64.le_iff_toInt_le

/-- The tests for an approval. -/
theorem approves_eq : (decide (t.needed ≤ t.turnout) && decide (0 < t.decided) &&
    decide (t.threshold ≤ t.support)) = p.approves v := by
  rw [approves, t.quorumMet_eq, ← t.toInt_decided, ← Number.toInt_of_integer? t.integer?_support,
    ← Number.toInt_of_integer? t.integer?_threshold]
  simp only [Int64.le_iff_toInt_le, Int64.lt_iff_toInt_lt]
  rfl

end Tally

/-! ### Evaluation -/

theorem expr_rules (proposalType quorum approval : Value) :
    (rules proposalType quorum approval).expr = .declare "policy" (.object
      [("proposal_type", proposalType.sourceExpr), ("quorum_percent", quorum.sourceExpr),
        ("approval_percent", approval.sourceExpr)]) := rfl

theorem expr_cast : cast.expr = .declare "cast" (.binary
    (.binary (vote "yes").expr .add (vote "no").expr) .add (vote "abstain").expr) := rfl

theorem expr_product (left right : Parser.Phrase .operand) :
    (product left right).expr = .binary left.expr .multiply right.expr := rfl

theorem expr_atLeast (left right : Parser.Phrase (.operation 4)) :
    (atLeast left right).expr = .binary left.expr .greaterEqual right.expr := rfl

theorem expr_decided : decided.expr = .declare "decided"
    (.binary (vote "yes").expr .add (vote "no").expr) := rfl

theorem expr_isApproved : isApproved.expr = .binary
    (.binary (named "quorum_met").expr .and isDecided.expr) .and isSupported.expr := rfl

theorem expr_verdict : verdict.expr = .object [("proposal_type", (rule "proposal_type").expr),
    ("quorum_met", (named "quorum_met").expr), ("approved", (named "approved").expr)] := rfl

theorem statements_eq (p : Policy) : p.statements =
    [(rules (.string p.proposalType) (.integer p.quorum) (.integer p.approval)).expr,
      .block [cast.expr, .declare "quorum_met" isQuorum.expr, decided.expr,
        .declare "approved" isApproved.expr, verdict.expr]] := rfl

/-- The names that a script for a policy has bound when it applies the policy. -/
structure Bound (p : Policy) (v : Votes) (scopes : Scopes Value) : Prop where
  votes : scopes.get "votes" = .ok (.object v.fields)
  policy : scopes.get "policy" = .ok (.object p.parameters)

namespace Bound

variable {scopes : Scopes Value}

theorem push (h : p.Bound v scopes) : p.Bound v scopes.push :=
  ⟨(scopes.get_push _).trans h.votes, (scopes.get_push _).trans h.policy⟩

theorem define (h : p.Bound v scopes) {name : String} (hvotes : name ≠ "votes")
    (hpolicy : name ≠ "policy") (value : Value) : p.Bound v (scopes.define name value) :=
  ⟨(scopes.get_define_of_ne hvotes value).trans h.votes,
    (scopes.get_define_of_ne hpolicy value).trans h.policy⟩

end Bound

variable {setting : Setting ι σ} {allowance depth n : Nat} {w : World σ} {given : Table Value}

theorem insert_parameters : Table.insert "approval_percent" (.integer p.approval)
    (Table.insert "quorum_percent" (.integer p.quorum)
      (Table.insert "proposal_type" (.string p.proposalType) [])) = p.parameters := rfl

theorem leads_rules (hdepth : depth + 5 ≤ setting.limits.maxExpressionDepth.toNat) :
    Leads setting.limits n (n + 11) (eval setting allowance depth
        (rules (.string p.proposalType) (.integer p.quorum) (.integer p.approval)).expr) w
      (.ok (.object p.parameters)
        ⟨w.scopes.define "policy" (.object p.parameters), w.ledger⟩) := by
  rw [expr_rules]
  refine .declare (by omega) (.object (by omega) ?_)
  refine .bind (.literal (by omega)) ?_
  refine .bind (Value.leads_integer (by omega) _ _ _) ?_
  refine .bind (Value.leads_integer (by omega) _ _ _) ?_
  rw [← insert_parameters]
  exact .pure _ _

theorem leads_vote (hdepth : depth + 2 ≤ setting.limits.maxExpressionDepth.toNat)
    (h : p.Bound v w.scopes) (field : String) :
    Leads setting.limits n (n + 2) (eval setting allowance depth (vote field).expr) w
      (.ok ((Table.find? field v.fields).getD .null) w) :=
  .property (by omega) (.ref (by omega) h.votes)

theorem leads_rule (hdepth : depth + 2 ≤ setting.limits.maxExpressionDepth.toNat)
    (h : p.Bound v w.scopes) (field : String) :
    Leads setting.limits n (n + 2) (eval setting allowance depth (rule field).expr) w
      (.ok ((Table.find? field p.parameters).getD .null) w) :=
  .property (by omega) (.ref (by omega) h.policy)

theorem leads_named {name : String} {value : Value}
    (hdepth : depth + 1 ≤ setting.limits.maxExpressionDepth.toNat)
    (h : w.scopes.get name = .ok value) :
    Leads setting.limits n (n + 1) (eval setting allowance depth (named name).expr) w
      (.ok value w) :=
  .ref hdepth h

variable (t : p.Tally v)

theorem leads_decided (hdepth : depth + 4 ≤ setting.limits.maxExpressionDepth.toNat)
    (h : p.Bound v w.scopes) :
    Leads setting.limits n (n + 6) (eval setting allowance depth decided.expr) w
      (.ok (.integer t.decided) ⟨w.scopes.define "decided" (.integer t.decided), w.ledger⟩) := by
  rw [expr_decided]
  exact .declare (by omega) (.binary_value (by omega) rfl (leads_vote (by omega) h "yes")
    (leads_vote (by omega) h "no") (BinaryOp.apply_integer (by decide) t.integer?_decided))

theorem leads_cast (hdepth : depth + 5 ≤ setting.limits.maxExpressionDepth.toNat)
    (h : p.Bound v w.scopes) :
    Leads setting.limits n (n + 9) (eval setting allowance depth cast.expr) w
      (.ok (.integer t.cast) ⟨w.scopes.define "cast" (.integer t.cast), w.ledger⟩) := by
  rw [expr_cast]
  refine .declare (by omega) (.binary_value (by omega) rfl (.binary_value (by omega) rfl
    (leads_vote (by omega) h "yes") (leads_vote (by omega) h "no")
    (BinaryOp.apply_integer (by decide) t.integer?_decided)) (leads_vote (by omega) h "abstain") ?_)
  exact BinaryOp.apply_integer (by decide) t.integer?_cast

theorem leads_product {left right : Parser.Phrase .operand} {x y z : Int64} {k m : Nat}
    (hdepth : depth + 1 ≤ setting.limits.maxExpressionDepth.toNat)
    (hleft : Leads setting.limits (n + 1) k (eval setting allowance (depth + 1) left.expr) w
      (.ok (.integer x) w))
    (hright : Leads setting.limits k m (eval setting allowance (depth + 1) right.expr) w
      (.ok (.integer y) w)) (hz : Number.integer? (x.toInt * y.toInt) = some z) :
    Leads setting.limits n m (eval setting allowance depth (product left right).expr) w
      (.ok (.integer z) w) := by
  rw [expr_product]
  exact .binary_value hdepth rfl hleft hright (BinaryOp.apply_integer (by decide) hz)

theorem leads_isQuorum (hdepth : depth + 4 ≤ setting.limits.maxExpressionDepth.toNat)
    (h : p.Bound v w.scopes) (hcast : w.scopes.get "cast" = .ok (.integer t.cast)) :
    Leads setting.limits n (n + 9) (eval setting allowance depth isQuorum.expr) w
      (.ok (.boolean (p.quorumMet v)) w) := by
  have hturnout : Leads setting.limits (n + 1) (n + 4) (eval setting allowance (depth + 1)
      (product (named "cast") (Parser.Phrase.integer 100)).expr) w (.ok (.integer t.turnout) w) :=
    leads_product (by omega) (leads_named (by omega) hcast) (.literal (by omega))
      t.integer?_turnout
  have hneeded : Leads setting.limits (n + 4) (n + 9) (eval setting allowance (depth + 1)
      (product (vote "eligible") (rule "quorum_percent")).expr) w (.ok (.integer t.needed) w) :=
    leads_product (by omega) (leads_vote (by omega) h "eligible")
      (leads_rule (by omega) h "quorum_percent") t.integer?_needed
  rw [isQuorum, expr_atLeast, ← t.quorumMet_eq]
  exact .binary_value (by omega) rfl hturnout hneeded (BinaryOp.greaterEqual_integer _ _)

theorem leads_isDecided (hdepth : depth + 2 ≤ setting.limits.maxExpressionDepth.toNat)
    (hdecided : w.scopes.get "decided" = .ok (.integer t.decided)) :
    Leads setting.limits n (n + 3) (eval setting allowance depth isDecided.expr) w
      (.ok (.boolean (decide (0 < t.decided))) w) :=
  .binary_value (by omega) rfl (leads_named (by omega) hdecided) (.literal (by omega))
    (BinaryOp.greater_integer _ _)

theorem leads_isSupported (hdepth : depth + 4 ≤ setting.limits.maxExpressionDepth.toNat)
    (h : p.Bound v w.scopes) (hdecided : w.scopes.get "decided" = .ok (.integer t.decided)) :
    Leads setting.limits n (n + 9) (eval setting allowance depth isSupported.expr) w
      (.ok (.boolean (decide (t.threshold ≤ t.support))) w) := by
  have hsupport : Leads setting.limits (n + 1) (n + 5) (eval setting allowance (depth + 1)
      (product (vote "yes") (Parser.Phrase.integer 100)).expr) w (.ok (.integer t.support) w) :=
    leads_product (by omega) (leads_vote (by omega) h "yes") (.literal (by omega))
      t.integer?_support
  have hthreshold : Leads setting.limits (n + 5) (n + 9) (eval setting allowance (depth + 1)
      (product (named "decided") (rule "approval_percent")).expr) w
      (.ok (.integer t.threshold) w) :=
    leads_product (by omega) (leads_named (by omega) hdecided)
      (leads_rule (by omega) h "approval_percent") t.integer?_threshold
  rw [isSupported, expr_atLeast]
  exact .binary_value (by omega) rfl hsupport hthreshold (BinaryOp.greaterEqual_integer _ _)

/-- A conjunction goes on to its second part only if the first holds. -/
theorem leads_and {left right : Expr} {flag flag' : Bool} {k m : Nat}
    (hdepth : depth + 1 ≤ setting.limits.maxExpressionDepth.toNat)
    (hleft : Leads setting.limits (n + 1) k (eval setting allowance (depth + 1) left) w
      (.ok (.boolean flag) w))
    (hright : Leads setting.limits k m (eval setting allowance (depth + 1) right) w
      (.ok (.boolean flag') w)) :
    Leads setting.limits n m (eval setting allowance depth (.binary left .and right)) w
      (.ok (.boolean (flag && flag')) w) := by
  cases flag with
  | true => exact .undecided hdepth rfl hleft rfl hright
  | false => exact (Leads.decided hdepth rfl hleft rfl).mono hright.le

theorem leads_isApproved (hdepth : depth + 5 ≤ setting.limits.maxExpressionDepth.toNat)
    (h : p.Bound v w.scopes)
    (hquorum : w.scopes.get "quorum_met" = .ok (.boolean (p.quorumMet v)))
    (hdecided : w.scopes.get "decided" = .ok (.integer t.decided)) :
    Leads setting.limits n (n + 15) (eval setting allowance depth isApproved.expr) w
      (.ok (.boolean (p.approves v)) w) := by
  rw [expr_isApproved, ← t.approves_eq, t.quorumMet_eq]
  exact leads_and (by omega) (leads_and (by omega) (leads_named (by omega) hquorum)
    (leads_isDecided t (by omega) hdecided)) (leads_isSupported t (by omega) h hdecided)

theorem insert_verdict (approved proposalType quorum : Value) : Table.insert "approved" approved
    (Table.insert "quorum_met" quorum (Table.insert "proposal_type" proposalType [])) =
      [("approved", approved), ("proposal_type", proposalType), ("quorum_met", quorum)] := rfl

theorem leads_verdict (hdepth : depth + 3 ≤ setting.limits.maxExpressionDepth.toNat)
    (h : p.Bound v w.scopes)
    (hquorum : w.scopes.get "quorum_met" = .ok (.boolean (p.quorumMet v)))
    (happroved : w.scopes.get "approved" = .ok (.boolean (p.approves v))) :
    Leads setting.limits n (n + 5) (eval setting allowance depth verdict.expr) w
      (.ok (p.verdictOn v) w) := by
  rw [expr_verdict, verdictOn, ← insert_verdict]
  refine .object (by omega) (.bind (leads_rule (by omega) h "proposal_type") ?_)
  refine .bind (leads_named (by omega) hquorum) (.bind (leads_named (by omega) happroved) ?_)
  exact .pure _ _

/-- The block decides by the rule. -/
theorem leads_block (hcountable : p.Countable v) (hlimits : setting.limits = {})
    (hdepth : depth ≤ 100) (hroom : w.scopes.depth ≤ 100) (hactive : w.ledger.cancelled = false)
    (h : p.Bound v w.scopes) : ∃ scopes, Leads setting.limits n (n + 47)
      (eval setting allowance depth (.block [cast.expr, .declare "quorum_met" isQuorum.expr,
        decided.expr, .declare "approved" isApproved.expr, verdict.expr])) w
      (.ok (p.verdictOn v) ⟨scopes, w.ledger⟩) := by
  obtain ⟨t⟩ := hcountable.nonempty_tally
  obtain ⟨hexpressions, hscopes, hdeadline⟩ := room_of_default hlimits
  set s₁ := w.scopes.push.define "cast" (.integer t.cast) with hs₁
  set s₂ := s₁.define "quorum_met" (.boolean (p.quorumMet v)) with hs₂
  set s₃ := s₂.define "decided" (.integer t.decided) with hs₃
  set s₄ := s₃.define "approved" (.boolean (p.approves v)) with hs₄
  have h₁ : p.Bound v s₁ := h.push.define (by decide) (by decide) _
  have h₂ : p.Bound v s₂ := h₁.define (by decide) (by decide) _
  have h₃ : p.Bound v s₃ := h₂.define (by decide) (by decide) _
  have h₄ : p.Bound v s₄ := h₃.define (by decide) (by decide) _
  have hquorum : s₃.get "quorum_met" = .ok (.boolean (p.quorumMet v)) :=
    (s₂.get_define_of_ne (by decide) _).trans (s₁.get_define_self _ _)
  have hcast : Leads setting.limits (n + 1) (n + 10) (eval setting allowance (depth + 1) cast.expr)
      ⟨w.scopes.push, w.ledger⟩ (.ok (.integer t.cast) ⟨s₁, w.ledger⟩) :=
    leads_cast t (by omega) h.push
  have hmet : Leads setting.limits (n + 10) (n + 20) (eval setting allowance (depth + 1)
      (.declare "quorum_met" isQuorum.expr)) ⟨s₁, w.ledger⟩
      (.ok (.boolean (p.quorumMet v)) ⟨s₂, w.ledger⟩) :=
    .declare (by omega)
      (leads_isQuorum t (w := ⟨s₁, w.ledger⟩) (by omega) h₁ (w.scopes.push.get_define_self _ _))
  have hdecided : Leads setting.limits (n + 20) (n + 26) (eval setting allowance (depth + 1)
      decided.expr) ⟨s₂, w.ledger⟩ (.ok (.integer t.decided) ⟨s₃, w.ledger⟩) :=
    leads_decided t (by omega) h₂
  have happroved : Leads setting.limits (n + 26) (n + 42) (eval setting allowance (depth + 1)
      (.declare "approved" isApproved.expr)) ⟨s₃, w.ledger⟩
      (.ok (.boolean (p.approves v)) ⟨s₄, w.ledger⟩) :=
    .declare (by omega)
      (leads_isApproved t (w := ⟨s₃, w.ledger⟩) (by omega) h₃ hquorum (s₂.get_define_self _ _))
  have hverdict : Leads setting.limits (n + 42) (n + 47) (eval setting allowance (depth + 1)
      verdict.expr) ⟨s₄, w.ledger⟩ (.ok (p.verdictOn v) ⟨s₄, w.ledger⟩) :=
    leads_verdict (by omega) h₄ ((s₃.get_define_of_ne (by decide) _).trans hquorum)
      (s₃.get_define_self _ _)
  refine ⟨s₄.pop, .node (by omega) (.inScope (r := .ok (p.verdictOn v) ⟨s₄, w.ledger⟩) hactive
    hdeadline (by omega) ?_)⟩
  simp only [List.map_cons, List.map_nil, inTurn_cons_cons, inTurn_singleton]
  exact hcast.bind (hmet.bind (hdecided.bind (happroved.bind hverdict)))

/-- The script for a policy decides by the rule about the votes that it is given. -/
theorem interpret_verdict (hcountable : p.Countable v) (hlimits : setting.limits = {})
    {script : Script} (hstatements : script.statements.map Statement.expression = p.statements)
    (allowance : Nat) {bindings : Table Value} (hascending : bindings.Ascending)
    (hvotes : Table.find? "votes" bindings = some (.object v.fields)) {l : Ledger σ}
    (hsteps : l.steps = 0) (hactive : l.cancelled = false) :
    ∃ scopes k, interpret setting allowance script bindings l =
      .ok (p.verdictOn v) (World.withSteps ⟨scopes, l⟩ k) := by
  obtain ⟨hexpressions, -, -⟩ := room_of_default hlimits
  have hdepth := depth_globalsOf bindings
  set scopes := (globalsOf bindings).define "policy" (.object p.parameters) with hscopes
  have hdepth' : scopes.depth = 1 := ((globalsOf bindings).define_written _ _).depth.trans hdepth
  have hbound : p.Bound v scopes :=
    ⟨((globalsOf bindings).get_define_of_ne (by decide) _).trans (get_globalsOf hascending hvotes),
      (globalsOf bindings).get_define_self _ _⟩
  have hrules : Leads setting.limits 0 11 (eval setting allowance 0
      (rules (.string p.proposalType) (.integer p.quorum) (.integer p.approval)).expr)
      ⟨globalsOf bindings, l⟩ (.ok (.object p.parameters) ⟨scopes, l⟩) :=
    leads_rules (by omega)
  obtain ⟨scopes', hblock⟩ : ∃ scopes', Leads setting.limits 11 58 (eval setting allowance 0
      (.block [cast.expr, .declare "quorum_met" isQuorum.expr, decided.expr,
        .declare "approved" isApproved.expr, verdict.expr])) ⟨scopes, l⟩
      (.ok (p.verdictOn v) ⟨scopes', l⟩) :=
    leads_block hcountable hlimits (by omega) (show scopes.depth ≤ 100 by omega) hactive hbound
  have hall : Leads setting.limits 0 58
      (inTurn .null ((script.statements.map Statement.expression).map (eval setting allowance 0)))
      ⟨globalsOf bindings, l⟩ (.ok (p.verdictOn v) ⟨scopes', l⟩) := by
    rw [hstatements, statements_eq, List.map_cons, List.map_cons, List.map_nil, inTurn_pair]
    exact .bind hrules hblock
  obtain ⟨k, hk⟩ := interpret_of_leads hlimits hsteps (by decide) hall
  exact ⟨scopes', k, hk⟩

/-- A proposal policy decides by its rule about all votes whose sums and products fit, and writes
and calls nothing. -/
theorem execute_verdict (hgiven : p.Asks given) (hcountable : p.Countable v) {engine : Engine ι}
    {around : Surroundings ι σ} {options : Options}
    (hlimits : (engine.setting around options).limits = {}) (hactive : options.cancelled = false)
    (hascending : options.bindings.Ascending)
    (hvotes : Table.find? "votes" options.bindings = some (.object v.fields)) (state : σ) :
    ∃ script steps, Template.proposalPolicy.instantiate given = .ok script ∧
      engine.execute around options script state =
        (.value { value := p.verdictOn v, output := [], calls := [], steps }, state) := by
  obtain ⟨script, hscript, hstatements⟩ := hgiven.exists_instantiate
  obtain ⟨scopes, k, hinterpret⟩ := interpret_verdict hcountable hlimits hstatements
    ((engine.setting around options).limits.allowance around.horizon) hascending hvotes
    (l := .start options.cancelled state) rfl hactive
  exact ⟨script, k, hscript, Engine.execute_of_interpret hinterpret⟩

/-- Six against two, of ten who may vote, with the percentages by default. -/
theorem execute_verdict_budget :
    Asks ⟨"budget", 50, 66⟩ [("proposal_type", .string "budget")] ∧
      Countable ⟨"budget", 50, 66⟩ ⟨6, 2, 1, 10⟩ ∧
      ∃ script steps,
        Template.proposalPolicy.instantiate [("proposal_type", .string "budget")] = .ok script ∧
        (⟨{}, .empty, .empty⟩ : Engine Empty).execute ⟨(nomatch ·), "", 0⟩
          { bindings := [("votes", .object (Votes.fields ⟨6, 2, 1, 10⟩))] } script () =
          (.value {
            value := .object [("approved", .boolean true), ("proposal_type", .string "budget"),
              ("quorum_met", .boolean true)]
            output := []
            calls := []
            steps }, ()) := by
  have hasks : Asks ⟨"budget", 50, 66⟩ [("proposal_type", .string "budget")] :=
    ⟨rfl, rfl, rfl, by decide⟩
  have hcountable : Countable ⟨"budget", 50, 66⟩ ⟨6, 2, 1, 10⟩ := by constructor <;> decide
  have hverdict : verdictOn ⟨"budget", 50, 66⟩ ⟨6, 2, 1, 10⟩ =
      .object [("approved", .boolean true), ("proposal_type", .string "budget"),
        ("quorum_met", .boolean true)] := by
    have hquorum : quorumMet ⟨"budget", 50, 66⟩ ⟨6, 2, 1, 10⟩ = true := by decide
    have happroves : approves ⟨"budget", 50, 66⟩ ⟨6, 2, 1, 10⟩ = true := by decide
    rw [verdictOn, hquorum, happroves]
  have hbindings :
      Table.Ascending [("votes", Value.object (Votes.fields ⟨6, 2, 1, 10⟩))] :=
    List.pairwise_singleton _ _
  refine ⟨hasks, hcountable, ?_⟩
  rw [← hverdict]
  exact execute_verdict hasks hcountable rfl rfl hbindings rfl ()

end Policy

end Covenant
