import Covenant.Template.Basic

/-!
# Built-in templates

Templates for agreements between cooperatives that every engine offers unless told otherwise: a line
of mutual credit, the rules for passing a proposal, and the allocation of pooled resources.

## Main definitions

* `Template.mutualCreditAgreement`, `Template.proposalPolicy`, `Template.resourceAllocation`.
* `Template.builtins`: all of them.
-/

namespace Covenant.Template

/-- The text of lines, each with its end. -/
def lines (ls : List String) : String :=
  String.join (ls.map (· ++ "\n"))

/-- A placeholder. -/
def hole (name : String) : String :=
  "\x7b\x7b" ++ name ++ "\x7d\x7d"

/-- The text of a mutual credit agreement: the agreement, then a block that opens the line. -/
def mutualCreditScript : String :=
  lines [
    "// Mutual credit agreement",
    "let agreement = \x7b",
    "    parties: [" ++ hole "coop1_did" ++ ", " ++ hole "coop2_did" ++ "],",
    "    credit_limit: " ++ hole "credit_limit" ++ ",",
    "    duration_days: " ++ hole "duration_days",
    "\x7d",
    "",
    "\x7b",
    "    let line = economic.create_mutual_credit_line(" ++ hole "coop1_did" ++ ", " ++
      hole "coop2_did" ++ ", " ++ hole "credit_limit" ++ ")",
    "    print(\"credit line opened for\", agreement.duration_days, \"days\")",
    "    line",
    "\x7d"]

/-- A line of credit between two cooperatives, in either direction up to a limit. -/
def mutualCreditAgreement : Template where
  name := "MutualCreditAgreement"
  description := "Mutual credit line between two cooperatives"
  parameters := [
    { name := "coop1_did", type := .address, required := true,
      description := "First cooperative" },
    { name := "coop2_did", type := .address, required := true,
      description := "Second cooperative" },
    { name := "credit_limit", type := .integer, required := true,
      description := "Maximum outstanding balance in either direction" },
    { name := "duration_days", type := .integer, default? := some (.integer 365),
      description := "Days until the agreement is reviewed" }]
  script := mutualCreditScript
  documentation := some "Requires the permission guarding economic.create_mutual_credit_line."
  tags := ["economic", "mutual-credit"]

/-- The text of a proposal policy: the policy, then a block that applies it to the votes bound under
that name. -/
def proposalPolicyScript : String :=
  lines [
    "// Proposal policy",
    "let policy = \x7b",
    "    proposal_type: " ++ hole "proposal_type" ++ ",",
    "    quorum_percent: " ++ hole "quorum_percent" ++ ",",
    "    approval_percent: " ++ hole "approval_percent",
    "\x7d",
    "",
    "\x7b",
    "    let cast = votes.yes + votes.no + votes.abstain",
    "    let quorum_met = cast * 100 >= votes.eligible * policy.quorum_percent",
    "    let decided = votes.yes + votes.no",
    "    let approved = quorum_met && decided > 0 && " ++
      "votes.yes * 100 >= decided * policy.approval_percent",
    "    \x7b proposal_type: policy.proposal_type, quorum_met: quorum_met, " ++
      "approved: approved \x7d",
    "\x7d"]

/-- The quorum and the majority that a kind of proposal needs. -/
def proposalPolicy : Template where
  name := "ProposalPolicy"
  description := "Quorum and supermajority rules for proposals"
  parameters := [
    { name := "proposal_type", type := .string, required := true },
    { name := "quorum_percent", type := .integer, default? := some (.integer 50) },
    { name := "approval_percent", type := .integer, default? := some (.integer 66) }]
  script := proposalPolicyScript
  tags := ["governance"]

/-- The text of a resource allocation: the request, then a block that grants it if the pool holds
enough. -/
def resourceAllocationScript : String :=
  lines [
    "// Resource allocation",
    "let request = \x7b resource: " ++ hole "resource_type" ++ ", amount: " ++ hole "amount" ++
      ", recipient: " ++ hole "recipient_did" ++ " \x7d",
    "",
    "\x7b",
    "    let available = economic.get_balance(" ++ hole "pool_did" ++ ", request.resource)",
    "    if request.amount <= 0 || available < request.amount \x7b",
    "        \x7b allocated: false, requested: request.amount, available: available \x7d",
    "    \x7d else \x7b",
    "        economic.transfer(" ++ hole "pool_did" ++
      ", request.recipient, request.resource, request.amount)",
    "        \x7b allocated: true, requested: request.amount, " ++
      "available: available - request.amount \x7d",
    "    \x7d",
    "\x7d"]

/-- The allocation of pooled resources to a member, as far as the pool reaches. -/
def resourceAllocation : Template where
  name := "ResourceAllocation"
  description := "Allocate pooled resources to a member"
  parameters := [
    { name := "resource_type", type := .select ["compute", "storage", "bandwidth"],
      required := true },
    { name := "amount", type := .integer, required := true },
    { name := "pool_did", type := .address, required := true },
    { name := "recipient_did", type := .address, required := true }]
  script := resourceAllocationScript
  tags := ["economic", "resources"]

/-- All built-in templates. -/
def builtins : List Template :=
  [mutualCreditAgreement, proposalPolicy, resourceAllocation]

end Covenant.Template
