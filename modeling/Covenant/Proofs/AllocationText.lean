import Covenant.Proofs.Instantiation
import Covenant.Proofs.Outlines

/-!
# The script of a resource allocation

The text of the template for resource allocations is outlined by two statements: the request, and a
block that asks for the balance of the pool and decides. So the template is read as these statements
for all parameters that it accepts.

## Main definitions

* `Allocation` : the parameters that the template accepts.
* `Allocation.statements` : the statements of the script.

## Main results

* `Allocation.Asks.exists_instantiate` : the script for an allocation.
* `Allocation.exists_asks` : whatever the template accepts is an allocation.
-/

namespace Covenant

namespace ParameterType

variable {v : Value} {options : List String}

theorem isSome_accept?_integer : (integer.accept? v).isSome ↔ ∃ n, v = .integer n := by
  cases v <;> simp [accept?]

theorem isSome_accept?_address :
    (address.accept? v).isSome ↔ ∃ text, v = .string text ∧ isAddress text = true := by
  cases v <;> simp [accept?]

theorem isSome_accept?_select :
    ((select options).accept? v).isSome ↔ ∃ text, v = .string text ∧ text ∈ options := by
  cases v <;> simp [accept?]

end ParameterType

namespace Template

/-- What is instantiated has for every required parameter a value that its type takes. -/
theorem exists_accept?_of_instantiate {t : Template} {given : Table Value} {script : Script}
    (hvalid : t.validate = .ok ()) (h : t.instantiate given = .ok script) {p : Parameter}
    (hp : p ∈ t.parameters) (hrequired : p.required = true) :
    ∃ v, Table.find? p.name given = some v ∧ (p.type.accept? v).isSome := by
  obtain ⟨hmissing, -⟩ := declared_of_instantiate h
  obtain ⟨resolved, -, hresolved, -⟩ := exists_of_instantiate h
  obtain ⟨v, hv⟩ : ∃ v, Table.find? p.name given = some v :=
    Table.mem_keys_iff.mp (not_not.mp fun habsent => hmissing p hp ⟨hrequired, habsent⟩)
  obtain ⟨w, hw, -⟩ := find?_resolveAll hresolved (nodup_of_validate hvalid) hp
  refine ⟨v, hv, ?_⟩
  rw [hv, resolve, hrequired, ParameterType.accept] at hw
  rcases haccept : p.type.accept? v with _ | taken
  · simp [haccept] at hw
  · rfl

end Template

/-- What may be asked of the template for resource allocations. -/
structure Allocation where
  resource : String
  amount : Int64
  pool : String
  recipient : String
  isOffered : resource ∈ ["compute", "storage", "bandwidth"]
  isPool : ParameterType.isAddress pool = true
  isRecipient : ParameterType.isAddress recipient = true

open Covenant.Parser (Phrase Items outline)
open Covenant.Parser.Phrase hiding braces cond

/-! ### Statements -/

namespace Allocation

/-- An operand that is a whole expression. -/
def alone (p : Phrase .operand) : Phrase .whole :=
  (p.atLevel 0 (Nat.zero_le _)).whole

/-- A field of the request. -/
def requested (field : String) : Phrase .operand :=
  path "request" [field]

/-- The balance of the pool. -/
def available : Phrase .operand :=
  path "available" []

/-- `\x7b resource: …, amount: …, recipient: … \x7d` under the name of the request. -/
def request (resource amount recipient : Value) : Phrase .item :=
  declare "request" (alone (object
    [("resource", value resource), ("amount", value amount), ("recipient", value recipient)]
    (by decide : ["resource", "amount", "recipient"].Nodup)))

/-- `economic.get_balance(…, request.resource)` under the name of the balance. -/
def balance (pool : Value) : Phrase .item :=
  declare "available" (alone (call "economic" ["get_balance"] "economic.get_balance" rfl
    [value pool, (alone (requested "resource")).argument]))

/-- `economic.transfer(…, request.recipient, request.resource, request.amount)` -/
def transfer (pool : Value) : Phrase .item :=
  (alone (call "economic" ["transfer"] "economic.transfer" rfl
    [value pool, (alone (requested "recipient")).argument, (alone (requested "resource")).argument,
      (alone (requested "amount")).argument])).item

/-- `request.amount <= 0` -/
def isEmpty : Phrase (.operation 3) :=
  chain (by decide) ((requested "amount").atLevel 4 (by decide))
    [(.lessEqual, (integer 0).atLevel 4 (by decide))] (by decide)

/-- `available < request.amount` -/
def isShort : Phrase (.operation 3) :=
  chain (by decide) (available.atLevel 4 (by decide))
    [(.less, (requested "amount").atLevel 4 (by decide))] (by decide)

/-- `available - request.amount` -/
def remainder : Phrase .whole :=
  let difference : Phrase (.operation 4) := chain (by decide) (available.atLevel 5 (by decide))
    [(.subtract, (requested "amount").atLevel 5 (by decide))] (by decide)
  (difference.looser 4 (by decide) : Phrase (.operation 0)).whole

/-- `request.amount <= 0 || available < request.amount` -/
def refusal : Phrase (.operation 0) :=
  chain (by decide) (isEmpty.looser 2 (by decide) : Phrase (.operation 1))
    [(.or, isShort.looser 2 (by decide))] (by decide)

/-- `\x7b allocated: …, requested: request.amount, available: … \x7d` -/
def report (flag : Bool) (left : Phrase .whole) : Phrase .item :=
  (alone (object
    [("allocated", (alone (boolean flag)).argument),
      ("requested", (alone (requested "amount")).argument), ("available", left.argument)]
    (by decide : ["allocated", "requested", "available"].Nodup))).item

/-- The choice between refusing the request and granting it. -/
def decision (pool : Value) : Phrase .item :=
  (alone (Phrase.cond refusal.whole (Phrase.braces [report false (alone available)])
    (Phrase.braces [transfer pool, report true remainder]))).item

/-- The request, and a block that asks for the balance and decides. -/
def items (resource amount recipient pool : Value) : Items :=
  [request resource amount recipient,
    (alone (block (balance pool) [decision pool] (by rintro _ _ ⟨⟩; rfl))).item]

theorem values_items (resource amount recipient pool : Value) :
    Parser.values (items resource amount recipient pool).slots =
      [resource, amount, recipient, pool, pool] := rfl

theorem outline_items (resource amount recipient pool : Value) :
    outline (items resource amount recipient pool).slots =
      outline (items .null .null .null .null).slots := rfl

theorem width_items (resource amount recipient pool : Value) :
    Parser.width (items resource amount recipient pool).slots =
      resource.kinds.length + amount.kinds.length + recipient.kinds.length +
        2 * pool.kinds.length + 95 := by
  have hknown :
      (outline (items resource amount recipient pool).slots).countP Option.isSome = 95 := by
    rw [outline_items]
    decide +kernel
  rw [Parser.width_eq, hknown, values_items]
  simp only [List.map_cons, List.map_nil, List.sum_cons, List.sum_nil]
  omega

/-- The tokens of the template's text are those of the statements. -/
theorem segments_outlined :
    Template.Outlined (Segment.segments Template.resourceAllocation.script) 'é'
        (outline ((items .null .null .null .null).slots ++ [.token .finish none])) ∧
      Segment.names (Segment.segments Template.resourceAllocation.script) =
        ["resource_type", "amount", "recipient_did", "pool_did", "pool_did"] := by
  -- the characters of the whole text are those of its lines, which are short
  simp only [Segment.segments, Template.resourceAllocation, Template.resourceAllocationScript,
    Template.toList_lines, List.flatMap_cons, Template.toList_hole, String.toList_append]
  decide +kernel

theorem validate_resourceAllocation : Template.resourceAllocation.validate = .ok () := by
  have hplaceholders : Template.resourceAllocation.placeholders =
      ["resource_type", "amount", "recipient_did", "pool_did"] :=
    congrArg (firstOccurrences []) segments_outlined.2
  rw [Template.validate, hplaceholders]
  decide +kernel

theorem length_kinds_integer_le (n : Int64) : (Value.integer n).kinds.length ≤ 6 := by
  rw [Value.kinds, Value.integerKinds]
  split_ifs <;> cases decide (n.toInt < 0) <;> simp [Value.signKinds]

/-! ### Instantiation -/

variable (a : Allocation)

/-- The parameters that ask for an allocation. -/
def parameters : Table Value :=
  [("amount", .integer a.amount), ("pool_did", .string a.pool),
    ("recipient_did", .string a.recipient), ("resource_type", .string a.resource)]

theorem find?_parameters_eq (name : String) : Table.find? name a.parameters =
    if "amount" = name then some (.integer a.amount)
    else if "pool_did" = name then some (.string a.pool)
    else if "recipient_did" = name then some (.string a.recipient)
    else if "resource_type" = name then some (.string a.resource)
    else none := rfl

/-- The table has the parameters that ask for the allocation. -/
def Asks (given : Table Value) : Prop :=
  ∀ name, Table.find? name given = Table.find? name a.parameters

/-- The statements of the script for an allocation. -/
def statements : List Expr :=
  (items (.string a.resource) (.integer a.amount) (.string a.recipient) (.string a.pool)).exprs

/-- What holds of all parameters of the template. -/
theorem forall_parameters {holds : Parameter → Prop} :
    (∀ p ∈ Template.resourceAllocation.parameters, holds p) ↔
      holds { name := "resource_type", required := true,
              type := .select ["compute", "storage", "bandwidth"] } ∧
      holds { name := "amount", type := .integer, required := true } ∧
      holds { name := "pool_did", type := .address, required := true } ∧
      holds { name := "recipient_did", type := .address, required := true } := by
  have hparameters : Template.resourceAllocation.parameters =
      [{ name := "resource_type", required := true,
         type := .select ["compute", "storage", "bandwidth"] },
       { name := "amount", type := .integer, required := true },
       { name := "pool_did", type := .address, required := true },
       { name := "recipient_did", type := .address, required := true }] := rfl
  rw [hparameters, List.forall_mem_cons, List.forall_mem_cons, List.forall_mem_cons,
    List.forall_mem_singleton]

theorem resolve_eq_ok :
    ∀ p ∈ Template.resourceAllocation.parameters,
      Template.resolve p (Table.find? p.name a.parameters) =
        .ok (Template.valueOf a.parameters p.name) := by
  have htake {type : ParameterType} {value : Value} (hnull : value.isNull = false)
      (haccept : type.accept? value = some value) (name : String) :
      Template.resolve { name, type, required := true } (some value) = .ok value := by
    rw [Template.resolve, hnull, ParameterType.accept, haccept]
    rfl
  refine forall_parameters.mpr
    ⟨htake rfl ?_ _, htake rfl rfl _, htake rfl ?_ _, htake rfl ?_ _⟩
  · exact if_pos (List.contains_iff_mem.mpr a.isOffered)
  · exact if_pos a.isPool
  · exact if_pos a.isRecipient

theorem find?_parameters : ∀ p ∈ Template.resourceAllocation.parameters,
    Table.find? p.name a.parameters = some (Template.valueOf a.parameters p.name) :=
  forall_parameters.mpr ⟨rfl, rfl, rfl, rfl⟩

variable {a} {given : Table Value}

theorem find?_parameters_of_ne {name : String}
    (h : ∀ p ∈ Template.resourceAllocation.parameters, p.name ≠ name) :
    Table.find? name a.parameters = none := by
  obtain ⟨hresource, hamount, hpool, hrecipient⟩ := forall_parameters.mp h
  rw [find?_parameters_eq, if_neg hamount, if_neg hpool, if_neg hrecipient, if_neg hresource]

/-- The script for an allocation. -/
theorem Asks.exists_instantiate (h : a.Asks given) :
    ∃ script, Template.resourceAllocation.instantiate given = .ok script ∧
      script.statements.map Statement.expression = a.statements := by
  obtain ⟨houtlined, hnames⟩ := segments_outlined
  set all := items (.string a.resource) (.integer a.amount) (.string a.recipient) (.string a.pool)
    with hall
  have hplaces : outline (all.slots ++ [.token .finish none]) =
      outline ((items .null .null .null .null).slots ++ [.token .finish none]) := by
    rw [Parser.outline_append, outline_items, ← Parser.outline_append]
  have hwidth : Parser.width all.slots + 2 ≤ maxNesting := by
    have hamount := length_kinds_integer_le a.amount
    have hresource : (Value.string a.resource).kinds.length = 1 := rfl
    have hrecipient : (Value.string a.recipient).kinds.length = 1 := rfl
    have hpool : (Value.string a.pool).kinds.length = 1 := rfl
    have hnesting : maxNesting = 128 := rfl
    rw [width_items]
    omega
  refine Template.exists_instantiate (Template.valueOf a.parameters) validate_resourceAllocation
    ?_ ?_ ?_ (hplaces ▸ houtlined) ?_ (by rw [hnames]; rfl) hwidth
  · rintro p hp ⟨-, habsent⟩
    exact habsent (Table.mem_keys_iff.mpr ⟨_, (h p.name).trans (a.find?_parameters p hp)⟩)
  · intro key hkey hundeclared
    obtain ⟨v, hv⟩ := Table.mem_keys_iff.mp hkey
    rw [h key, find?_parameters_of_ne hundeclared] at hv
    cases hv
  · intro p hp
    rw [h p.name]
    exact a.resolve_eq_ok p hp
  · rw [hnames]
    decide

/-- Whatever the template accepts asks for an allocation. -/
theorem exists_asks {script : Script}
    (h : Template.resourceAllocation.instantiate given = .ok script) :
    ∃ a : Allocation, a.Asks given ∧ script.statements.map Statement.expression = a.statements := by
  obtain ⟨-, hundeclared⟩ := Template.declared_of_instantiate h
  obtain ⟨hresource, hamount, hpool, hrecipient⟩ := forall_parameters.mp fun p hp =>
    Template.exists_accept?_of_instantiate validate_resourceAllocation h hp
  obtain ⟨_, hresource, hselect⟩ := hresource rfl
  obtain ⟨_, hamount, hinteger⟩ := hamount rfl
  obtain ⟨_, hpool, haddress⟩ := hpool rfl
  obtain ⟨_, hrecipient, haddress'⟩ := hrecipient rfl
  obtain ⟨resource, rfl, isOffered⟩ := ParameterType.isSome_accept?_select.mp hselect
  obtain ⟨amount, rfl⟩ := ParameterType.isSome_accept?_integer.mp hinteger
  obtain ⟨pool, rfl, isPool⟩ := ParameterType.isSome_accept?_address.mp haddress
  obtain ⟨recipient, rfl, isRecipient⟩ := ParameterType.isSome_accept?_address.mp haddress'
  let a : Allocation := { resource, amount, pool, recipient, isOffered, isPool, isRecipient }
  have hasks : a.Asks given := by
    intro name
    rw [find?_parameters_eq]
    split_ifs with hname hname hname hname
    · exact hname ▸ hamount
    · exact hname ▸ hpool
    · exact hname ▸ hrecipient
    · exact hname ▸ hresource
    · refine Option.eq_none_iff_forall_ne_some.mpr fun v hv => ?_
      exact hundeclared name (Table.mem_keys_iff.mpr ⟨v, hv⟩)
        (forall_parameters.mpr ⟨‹_›, ‹_›, ‹_›, ‹_›⟩)
  refine ⟨a, hasks, ?_⟩
  obtain ⟨script', hscript', hstatements⟩ := hasks.exists_instantiate
  obtain rfl : script = script' := Except.ok.inj (h.symm.trans hscript')
  exact hstatements

end Allocation

end Covenant
