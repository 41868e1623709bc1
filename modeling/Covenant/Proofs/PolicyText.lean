import Covenant.Proofs.AllocationText

/-!
# The script of a proposal policy

The text of the template for proposal policies is outlined by two statements: the policy, and a
block that applies it to the votes. So the template is read as these statements for every kind of
proposal and all percentages, given or by default.

## Main definitions

* `Policy` : the parameters of a policy.
* `Policy.statements` : the statements of the script.

## Main results

* `Policy.Asks.exists_instantiate` : the script for a policy.
-/

namespace Covenant

/-- The kind of proposal, the share of votes cast that it needs and the share of approvals. -/
structure Policy where
  proposalType : String
  quorum : Int64
  approval : Int64

open Covenant.Parser (Phrase Items outline)
open Covenant.Parser.Phrase hiding braces cond
open Covenant.Allocation (alone length_kinds_integer_le)

namespace Policy

/-! ### Statements -/

/-- A field of the votes. -/
def vote (field : String) : Phrase .operand :=
  path "votes" [field]

/-- A field of the policy. -/
def rule (field : String) : Phrase .operand :=
  path "policy" [field]

/-- A name that the block declares. -/
def named (name : String) : Phrase .operand :=
  path name []

/-- A sum of operands. -/
def sum (first : Phrase .operand) (rest : List (Phrase .operand)) : Phrase .whole :=
  let operands : Phrase.Links 4 := rest.map fun p => (.add, p.atLevel 5 BinaryOp.add.level_lt)
  let total : Phrase (.operation 4) := chain BinaryOp.add.level_lt
    (first.atLevel 5 BinaryOp.add.level_lt) operands (List.forall_mem_map.mpr fun _ _ => rfl)
  (total.looser 4 BinaryOp.add.level_le : Phrase (.operation 0)).whole

/-- A product of two operands. -/
def product (left right : Phrase .operand) : Phrase (.operation 4) :=
  (chain BinaryOp.multiply.level_lt (left.atLevel 6 BinaryOp.multiply.level_lt)
    [(.multiply, right.atLevel 6 BinaryOp.multiply.level_lt)]
    (List.forall_mem_singleton.mpr rfl) : Phrase (.operation 5)).looser 1
      BinaryOp.multiply.level_le

/-- The first product is no less than the second. -/
def atLeast (left right : Phrase (.operation 4)) : Phrase (.operation 3) :=
  chain BinaryOp.greaterEqual.level_lt left [(.greaterEqual, right)]
    (List.forall_mem_singleton.mpr rfl)

/-- `\x7b proposal_type: …, quorum_percent: …, approval_percent: … \x7d` under the name of the
policy. -/
def rules (proposalType quorum approval : Value) : Phrase .item :=
  declare "policy" (alone (object
    [("proposal_type", value proposalType), ("quorum_percent", value quorum),
      ("approval_percent", value approval)]
    (by decide : ["proposal_type", "quorum_percent", "approval_percent"].Nodup)))

/-- `votes.yes + votes.no + votes.abstain` under the name of the votes cast. -/
def cast : Phrase .item :=
  declare "cast" (sum (vote "yes") [vote "no", vote "abstain"])

/-- `cast * 100 >= votes.eligible * policy.quorum_percent` -/
def isQuorum : Phrase (.operation 3) :=
  atLeast (product (named "cast") (integer 100))
    (product (vote "eligible") (rule "quorum_percent"))

/-- `votes.yes + votes.no` under the name of the votes that decide. -/
def decided : Phrase .item :=
  declare "decided" (sum (vote "yes") [vote "no"])

/-- `decided > 0` -/
def isDecided : Phrase (.operation 3) :=
  chain BinaryOp.greater.level_lt ((named "decided").atLevel 4 BinaryOp.greater.level_lt)
    [(.greater, (integer 0).atLevel 4 BinaryOp.greater.level_lt)]
    (List.forall_mem_singleton.mpr rfl)

/-- `votes.yes * 100 >= decided * policy.approval_percent` -/
def isSupported : Phrase (.operation 3) :=
  atLeast (product (vote "yes") (integer 100))
    (product (named "decided") (rule "approval_percent"))

/-- `quorum_met && decided > 0 && votes.yes * 100 >= decided * policy.approval_percent` -/
def isApproved : Phrase (.operation 1) :=
  chain BinaryOp.and.level_lt ((named "quorum_met").atLevel 2 BinaryOp.and.level_lt)
    [(.and, isDecided.looser 1 BinaryOp.greater.level_le),
      (.and, isSupported.looser 1 BinaryOp.greaterEqual.level_le)] (by decide)

/-- A test under a name. -/
def test (name : String) (p : Phrase (.operation 0)) : Phrase .item :=
  declare name p.whole

/-- `\x7b proposal_type: policy.proposal_type, quorum_met: quorum_met, approved: approved \x7d` -/
def verdict : Phrase .item :=
  (alone (object
    [("proposal_type", (alone (rule "proposal_type")).argument),
      ("quorum_met", (alone (named "quorum_met")).argument),
      ("approved", (alone (named "approved")).argument)]
    (by decide : ["proposal_type", "quorum_met", "approved"].Nodup))).item

/-- The policy, and a block that applies it. -/
def items (proposalType quorum approval : Value) : Items :=
  [rules proposalType quorum approval,
    (alone (block cast [test "quorum_met" (isQuorum.looser 3 BinaryOp.greaterEqual.level_le),
      decided, test "approved" (isApproved.looser 1 BinaryOp.and.level_le), verdict]
      (by rintro _ _ ⟨⟩; rfl))).item]

theorem values_items (proposalType quorum approval : Value) :
    Parser.values (items proposalType quorum approval).slots = [proposalType, quorum, approval] :=
  rfl

theorem outline_items (proposalType quorum approval : Value) :
    outline (items proposalType quorum approval).slots =
      outline (items .null .null .null).slots := rfl

theorem width_items (proposalType quorum approval : Value) :
    Parser.width (items proposalType quorum approval).slots =
      proposalType.kinds.length + quorum.kinds.length + approval.kinds.length + 88 := by
  have hknown :
      (outline (items proposalType quorum approval).slots).countP Option.isSome = 88 := by
    rw [outline_items]
    decide +kernel
  rw [Parser.width_eq, hknown, values_items]
  simp only [List.map_cons, List.map_nil, List.sum_cons, List.sum_nil]
  omega

/-- The tokens of the template's text are those of the statements. -/
theorem segments_outlined :
    Template.Outlined (Segment.segments Template.proposalPolicy.script) 'é'
        (outline ((items .null .null .null).slots ++ [.token .finish none])) ∧
      Segment.names (Segment.segments Template.proposalPolicy.script) =
        ["proposal_type", "quorum_percent", "approval_percent"] := by
  -- the characters of the whole text are those of its lines, which are short
  simp only [Segment.segments, Template.proposalPolicy, Template.proposalPolicyScript,
    Template.toList_lines, List.flatMap_cons, Template.toList_hole, String.toList_append]
  decide +kernel

theorem validate_proposalPolicy : Template.proposalPolicy.validate = .ok () := by
  have hplaceholders : Template.proposalPolicy.placeholders =
      ["proposal_type", "quorum_percent", "approval_percent"] :=
    congrArg (firstOccurrences []) segments_outlined.2
  rw [Template.validate, hplaceholders]
  decide +kernel

/-! ### Instantiation -/

variable (p : Policy)

/-- The values of the parameters. -/
def parameters : Table Value :=
  [("approval_percent", .integer p.approval), ("proposal_type", .string p.proposalType),
    ("quorum_percent", .integer p.quorum)]

/-- The parameters ask for the policy: the kind of proposal is given, and the percentages are given
or left to their defaults. -/
structure Asks (given : Table Value) : Prop where
  proposalType : Table.find? "proposal_type" given = some (.string p.proposalType)
  quorum : (Table.find? "quorum_percent" given).getD (.integer 50) = .integer p.quorum
  approval : (Table.find? "approval_percent" given).getD (.integer 66) = .integer p.approval
  declared : ∀ key ∈ given.keys, key ∈ ["proposal_type", "quorum_percent", "approval_percent"]

/-- The statements of the script for a policy. -/
def statements : List Expr :=
  (items (.string p.proposalType) (.integer p.quorum) (.integer p.approval)).exprs

/-- What holds of all parameters of the template. -/
theorem forall_parameters {holds : Parameter → Prop} :
    (∀ p ∈ Template.proposalPolicy.parameters, holds p) ↔
      holds { name := "proposal_type", type := .string, required := true } ∧
      holds { name := "quorum_percent", type := .integer, default? := some (.integer 50) } ∧
      holds { name := "approval_percent", type := .integer, default? := some (.integer 66) } := by
  have hparameters : Template.proposalPolicy.parameters =
      [{ name := "proposal_type", type := .string, required := true },
       { name := "quorum_percent", type := .integer, default? := some (.integer 50) },
       { name := "approval_percent", type := .integer, default? := some (.integer 66) }] := rfl
  rw [hparameters, List.forall_mem_cons, List.forall_mem_cons, List.forall_mem_singleton]

/-- An integer that is given or left to its default is taken as it is. -/
theorem resolve_integer {found : Option Value} {initial n : Int64}
    (h : found.getD (.integer initial) = .integer n) (name : String) :
    Template.resolve { name, type := .integer, default? := some (.integer initial) } found =
      .ok (.integer n) := by
  cases found with
  | none => exact congrArg Except.ok h
  | some v =>
    obtain rfl : v = .integer n := h
    rfl

variable {p} {given : Table Value}

/-- The script for a policy. -/
theorem Asks.exists_instantiate (h : p.Asks given) :
    ∃ script, Template.proposalPolicy.instantiate given = .ok script ∧
      script.statements.map Statement.expression = p.statements := by
  obtain ⟨houtlined, hnames⟩ := segments_outlined
  have hdeclared : Template.proposalPolicy.parameters.map Parameter.name =
      ["proposal_type", "quorum_percent", "approval_percent"] := rfl
  have hplaces : outline ((items (.string p.proposalType) (.integer p.quorum)
      (.integer p.approval)).slots ++ [.token .finish none]) =
        outline ((items .null .null .null).slots ++ [.token .finish none]) := by
    rw [Parser.outline_append, outline_items, ← Parser.outline_append]
  have hquorum := length_kinds_integer_le p.quorum
  have happroval := length_kinds_integer_le p.approval
  have hwidth : Parser.width (items (.string p.proposalType) (.integer p.quorum)
      (.integer p.approval)).slots + 2 ≤ maxNesting := by
    have hproposalType : (Value.string p.proposalType).kinds.length = 1 := rfl
    have hnesting : maxNesting = 128 := rfl
    rw [width_items]
    omega
  refine Template.exists_instantiate (Template.valueOf p.parameters) validate_proposalPolicy
    (forall_parameters.mpr ⟨?_, ?_, ?_⟩) ?_
    (forall_parameters.mpr ⟨?_, resolve_integer h.quorum _, resolve_integer h.approval _⟩)
    (hplaces ▸ houtlined) ?_ (by rw [hnames]; rfl) hwidth
  · exact fun hmissing => hmissing.2 (Table.mem_keys_iff.mpr ⟨_, h.proposalType⟩)
  · exact fun hmissing => nomatch hmissing.1
  · exact fun hmissing => nomatch hmissing.1
  · intro key hkey hundeclared
    have hmem := h.declared key hkey
    rw [← hdeclared] at hmem
    obtain ⟨q, hq, rfl⟩ := List.mem_map.mp hmem
    exact hundeclared q hq rfl
  · rw [h.proposalType]
    rfl
  · rw [hnames, hdeclared]
    exact fun _ hname => hname

end Policy

end Covenant
