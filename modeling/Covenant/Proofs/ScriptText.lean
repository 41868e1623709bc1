import Covenant.Proofs.Documents
import Covenant.Proofs.Expression
import Covenant.Proofs.Grammar

/-!
# The text of a script

A script that was read from a text has literals that JSON keeps, where doubles are read exactly, so
its document is read as the same script. The text of the document is read only if at most 127 arrays
and objects are open at a time, and a script can be nested deeper than that: each negation takes two
levels, each entry of an object three. No text at all is read as such a script, since what is read
is nested no deeper than the document it is read from.

## Main definitions

* `Expr.Literals` : all literals inside an expression have a property.
* `Json.Kept` : the text of a document keeps all of it.
* `Json.NoDeeper` : a reader gives nothing deeper than the document.

## Main results

* `Expr.read?_toJson`, `Script.ofJson?_toJson` : documents are read as what they were made from.
* `Expr.noDeeper_read?`, `Script.depth_le_of_parseJson?` : what is read is not nested too deep.
* `Script.parseJson?_compact_iff` : which scripts are read back from their text.
-/

namespace Covenant

open Json

/-- Something or null is read back if it is and its document is not null. -/
theorem Json.nullable?_map {α : Type} {value? : Json → Option α} {f : α → Json} {o : Option α}
    (h : ∀ a ∈ o, value? (f a) = some a) (hnull : ∀ a, f a ≠ .null) :
    nullable? value? ((o.map f).getD .null) = some o := by
  cases o with
  | none => rfl
  | some a =>
    change nullable? value? (f a) = _
    rw [nullable?.eq_2 _ _ (hnull a), h a rfl]
    rfl

/-! ### Documents that their text keeps -/

namespace Json

/-- The text of a document keeps all of it: integers have at most 64 bits and doubles are finite. -/
def Kept (j : Json) : Prop :=
  j.Fits ∧ j.written = j

theorem kept_string (text : String) : (string text).Kept :=
  ⟨trivial, rfl⟩

theorem kept_null : null.Kept :=
  ⟨trivial, rfl⟩

theorem kept_array {items : List Json} (h : ∀ item ∈ items, item.Kept) : (array items).Kept := by
  refine ⟨fitsItems_iff.mpr fun item hitem => (h item hitem).1, ?_⟩
  rw [written, writtenItems_eq, List.map_congr_left fun item hitem => (h item hitem).2,
    List.map_id']

theorem kept_object {members : List (String × Json)} (h : ∀ member ∈ members, member.2.Kept) :
    (object members).Kept := by
  refine ⟨fitsMembers_iff.mpr fun member hmember => (h member hmember).1, ?_⟩
  rw [written, writtenMembers_eq,
    List.map_congr_left fun member hmember => congrArg _ (h member hmember).2, List.map_id']

/-- A document is read back if its text keeps all of it and it is not nested too deep. -/
theorem Kept.parse?_compact {j : Json} (h : j.Kept) (hdepth : j.depth ≤ maxOpen) :
    parse? j.compact = some j := by
  rw [Json.parse?_compact h.1 hdepth, h.2]

end Json

namespace Expr

/-! ### Documents of expressions -/

theorem allToJson_eq (es : List Expr) : allToJson es = es.map toJson := by
  induction es with
  | nil => rfl
  | cons e es ih => rw [allToJson, ih, List.map_cons]

theorem entriesToJson_eq (entries : List (String × Expr)) :
    entriesToJson entries = entries.map fun entry => .array [.string entry.1, entry.2.toJson] := by
  induction entries with
  | nil => rfl
  | cons entry entries ih => rw [entriesToJson, ih, List.map_cons]

theorem toJson_cond (test yes : Expr) (no : Option Expr) :
    (cond test yes no).toJson = tagged "If" (.object [
      ("condition", test.toJson), ("then_branch", yes.toJson),
      ("else_branch", (no.map toJson).getD .null)]) := by
  cases no <;> rfl

theorem toJson_loop (test : Option Expr) (body : Expr) :
    (loop test body).toJson = tagged "Loop" (.object [
      ("condition", (test.map toJson).getD .null), ("body", body.toJson)]) := by
  cases test <;> rfl

/-- All literals inside the expression have a property. -/
def Literals (P : Value → Prop) (e : Expr) : Prop :=
  e.Everywhere fun node => ∀ v, node = literal v → P v

variable {P : Value → Prop}

theorem Literals.imp {Q : Value → Prop} {e : Expr} (h : e.Literals P) (himp : ∀ v, P v → Q v) :
    e.Literals Q :=
  fun node hnode v hv => himp v (h node hnode v hv)

/-! ### Reading back -/

theorem construct?_tagged (aside : Bool) (tag : String) (content : Json) :
    construct? aside (tagged tag content) = some ⟨tag, some content, aside⟩ := by
  simp [construct?, tagged, contentFirst, plainChoice?, choice?]

theorem toJson_ne_null (e : Expr) : e.toJson ≠ .null := by
  cases e with
  | cond test yes no => cases no <;> nofun
  | loop test body => cases test <;> nofun
  | jump j => cases j <;> nofun
  | _ => nofun

/-- The documents of parts in a list are read back if each of them is. -/
theorem list?_allToJson {es : List Expr} {n : Nat} {aside : Bool}
    (h : ∀ e ∈ es, read? n aside e.toJson = some e) :
    (Json.array (allToJson es)).list? (read? n aside) = some es := by
  rw [allToJson_eq]
  exact list?_map h

/-- The document of an expression is read as the expression if those of its parts are. -/
theorem read?_node {e : Expr} {n : Nat} {aside : Bool}
    (hliteral : ∀ v, e = literal v → v.Canonical)
    (hparts : ∀ part ∈ e.children, read? n aside part.toJson = some part) :
    read? (n + 1) aside e.toJson = some e := by
  cases e with
  | literal v =>
    refine Option.bind_eq_some_iff.mpr ⟨_, construct?_tagged _ _ _, ?_⟩
    exact Option.bind_eq_some_iff.mpr ⟨_, Value.ofJson?_toJson (hliteral v rfl), rfl⟩
  | ref name => exact Option.bind_eq_some_iff.mpr ⟨_, construct?_tagged _ _ _, rfl⟩
  | block items | array items =>
    refine Option.bind_eq_some_iff.mpr ⟨_, construct?_tagged _ _ _, ?_⟩
    exact Option.bind_eq_some_iff.mpr ⟨_, list?_allToJson hparts, rfl⟩
  | call name args =>
    have hargs : (Json.array (allToJson args)).list? (read? n aside) = some args :=
      list?_allToJson hparts
    refine Option.bind_eq_some_iff.mpr ⟨_, construct?_tagged _ _ _, ?_⟩
    refine Option.bind_eq_some_iff.mpr ⟨_, members?_object (by decide) rfl, ?_⟩
    simp [hargs]
  | binary | unary | assign | declare | property | index =>
    simp only [children, List.forall_mem_cons] at hparts
    refine Option.bind_eq_some_iff.mpr ⟨_, construct?_tagged _ _ _, ?_⟩
    refine Option.bind_eq_some_iff.mpr ⟨_, members?_object (by decide) rfl, ?_⟩
    simp [hparts]
  | cond test yes no =>
    simp only [children, List.forall_mem_cons, Option.mem_toList] at hparts
    have hno := nullable?_map hparts.2.2 toJson_ne_null
    rw [toJson_cond]
    refine Option.bind_eq_some_iff.mpr ⟨_, construct?_tagged _ _ _, ?_⟩
    refine Option.bind_eq_some_iff.mpr ⟨_, members?_object (by decide) rfl, ?_⟩
    simp [hparts, hno]
  | loop test body =>
    simp only [children, List.forall_mem_append, List.forall_mem_cons, Option.mem_toList] at hparts
    have htest := nullable?_map hparts.1 toJson_ne_null
    rw [toJson_loop]
    refine Option.bind_eq_some_iff.mpr ⟨_, construct?_tagged _ _ _, ?_⟩
    refine Option.bind_eq_some_iff.mpr ⟨_, members?_object (by decide) rfl, ?_⟩
    simp [hparts, htest]
  | object entries =>
    simp only [children, List.forall_mem_map] at hparts
    rw [toJson, entriesToJson_eq]
    refine Option.bind_eq_some_iff.mpr ⟨_, construct?_tagged _ _ _, ?_⟩
    refine Option.bind_eq_some_iff.mpr ⟨entries, list?_map fun entry hentry => ?_, rfl⟩
    refine Option.bind_eq_some_iff.mpr ⟨entry.1, rfl, ?_⟩
    exact Option.bind_eq_some_iff.mpr ⟨entry.2, hparts entry hentry, rfl⟩
  | jump j => cases j <;> rfl

theorem depth_tagged (tag : String) (content : Json) :
    (tagged tag content).depth = content.depth + 1 := by
  simp [tagged, Json.depth, depthMembers]

theorem depth_toJson_pos (e : Expr) : 0 < e.toJson.depth := by
  cases e with
  | cond | loop => simp [toJson_cond, toJson_loop, depth_tagged]
  | jump j => cases j <;> exact Nat.one_pos
  | _ => simp [toJson, depth_tagged]

theorem depth_toJson_lt_of_mem_children {e part : Expr} (h : part ∈ e.children) :
    part.toJson.depth < e.toJson.depth := by
  have hitem {items : List Expr} (h : part ∈ items) :
      part.toJson.depth ≤ depthItems (allToJson items) := by
    rw [allToJson_eq]
    exact depthItems_le_iff.mp (Nat.le_refl _) _ (List.mem_map_of_mem h)
  have hoption {o : Option Expr} (h : part ∈ o) :
      part.toJson.depth ≤ ((o.map toJson).getD .null).depth := by
    rw [Option.mem_def.mp h]
    exact Nat.le_refl _
  cases e with
  | literal | ref | jump => cases h
  | block | array | call =>
    have hpart := hitem h
    simp only [children, toJson, depth_tagged, Json.depth, depthMembers] at hpart ⊢
    omega
  | binary | unary | assign | declare | property | index =>
    simp only [children, List.mem_cons, List.not_mem_nil, or_false] at h
    simp only [toJson, depth_tagged, Json.depth, depthMembers]
    rcases h with rfl | rfl <;> omega
  | cond =>
    simp only [children, List.mem_cons, Option.mem_toList] at h
    simp only [toJson_cond, depth_tagged, Json.depth, depthMembers]
    rcases h with rfl | rfl | h
    · omega
    · omega
    · have hpart := hoption h
      omega
  | loop =>
    simp only [children, List.mem_append, Option.mem_toList, List.mem_singleton] at h
    simp only [toJson_loop, depth_tagged, Json.depth, depthMembers]
    rcases h with h | rfl
    · have hpart := hoption h
      omega
    · omega
  | object entries =>
    obtain ⟨entry, hentry, rfl⟩ := List.mem_map.mp h
    have hpair : Json.depth (.array [.string entry.1, entry.2.toJson]) ≤
        depthItems (entriesToJson entries) := by
      rw [entriesToJson_eq]
      exact depthItems_le_iff.mp (Nat.le_refl _) _ (List.mem_map_of_mem hentry)
    simp only [toJson, depth_tagged, Json.depth, depthItems] at hpair ⊢
    omega

/-- The document of an expression is read as the expression if the objects among its literals
ascend. -/
theorem read?_toJson {e : Expr} (hliterals : e.Literals Value.Canonical) {n : Nat}
    (hn : e.toJson.depth ≤ n) (aside : Bool) : read? n aside e.toJson = some e := by
  induction e using childrenInd generalizing n with
  | node e ih =>
    obtain ⟨m, rfl⟩ : ∃ m, n = m + 1 := ⟨n - 1, by have := e.depth_toJson_pos; omega⟩
    obtain ⟨hself, hparts⟩ := everywhere_iff.mp hliterals
    refine read?_node hself fun part hpart => ?_
    have hlt := depth_toJson_lt_of_mem_children hpart
    exact ih part hpart (hparts part hpart) (by omega)

theorem kept_tagged (tag : String) {content : Json} (h : content.Kept) :
    (tagged tag content).Kept :=
  kept_object (List.forall_mem_cons.mpr ⟨kept_string tag, List.forall_mem_singleton.mpr h⟩)

/-- The text of an expression keeps all of it if the doubles among its literals are finite. -/
theorem kept_toJson {e : Expr} (h : e.Literals Value.Finite) : e.toJson.Kept := by
  induction e using childrenInd with
  | node e ih =>
    obtain ⟨hself, hparts⟩ := everywhere_iff.mp h
    replace hparts : ∀ part ∈ e.children, part.toJson.Kept :=
      fun part hpart => ih part hpart (hparts part hpart)
    have hoption {o : Option Expr} (h : ∀ part ∈ o, part.toJson.Kept) :
        ((o.map toJson).getD .null).Kept := by
      cases o with
      | none => exact kept_null
      | some part => exact h part rfl
    cases e with
    | literal v =>
      exact kept_tagged _ ⟨v.fits_toJson, Value.written_toJson (hself v rfl)⟩
    | ref name => exact kept_tagged _ (kept_string name)
    | block items | array items =>
      rw [toJson, allToJson_eq]
      exact kept_tagged _ (kept_array (List.forall_mem_map.mpr hparts))
    | call name args =>
      have hargs : (Json.array (args.map toJson)).Kept :=
        kept_array (List.forall_mem_map.mpr hparts)
      rw [toJson, allToJson_eq]
      exact kept_tagged _ (kept_object (by simp [kept_string, hargs]))
    | binary | unary | assign | declare | property | index =>
      simp only [children, List.forall_mem_cons] at hparts
      refine kept_tagged _ (kept_object ?_)
      simp [kept_string, BinaryOp.toJson, UnaryOp.toJson, hparts]
    | cond test yes no =>
      simp only [children, List.forall_mem_cons, Option.mem_toList] at hparts
      rw [toJson_cond]
      exact kept_tagged _ (kept_object (by simp [hparts, hoption hparts.2.2]))
    | loop test body =>
      simp only [children, List.forall_mem_append, List.forall_mem_cons, Option.mem_toList]
        at hparts
      rw [toJson_loop]
      exact kept_tagged _ (kept_object (by simp [hparts, hoption hparts.1]))
    | object entries =>
      simp only [children, List.forall_mem_map] at hparts
      rw [toJson, entriesToJson_eq]
      refine kept_tagged _ (kept_array (List.forall_mem_map.mpr fun entry hentry => ?_))
      exact kept_array (by simp [kept_string, hparts entry hentry])
    | jump j => cases j <;> exact kept_object (by simp [kept_string])

theorem Literals.node {e : Expr} (hself : ∀ v, e = literal v → P v)
    (hparts : ∀ part ∈ e.children, part.Literals P) : e.Literals P :=
  everywhere_iff.mpr ⟨hself, hparts⟩

theorem Literals.of_payload {e : Expr} (h : e.payload.Literals P) : e.Literals P := by
  cases e with
  | declare name value => exact .node (fun _ heq => nomatch heq) (List.forall_mem_singleton.mpr h)
  | _ => exact h

end Expr

/-- The literals of what is read from a text are those that tokens write. -/
theorem Shaped.literals {b : Bool} {e : Expr} (h : Shaped b e) : e.Literals Value.IsLiteral := by
  induction h with
  | literal hvalue =>
    refine .node (fun v heq => ?_) (List.forall_mem_nil _)
    cases heq
    exact hvalue
  | ref | jump => exact .node (fun _ heq => Expr.noConfusion heq) (List.forall_mem_nil _)
  | binary _ _ ih ih' | index _ _ ih ih' =>
    exact .node (fun _ heq => Expr.noConfusion heq) (by simp [Expr.children, ih, ih'])
  | unary _ ih | assign _ ih | property _ ih =>
    exact .node (fun _ heq => Expr.noConfusion heq) (List.forall_mem_singleton.mpr ih)
  | call _ ih | array _ ih => exact .node (fun _ heq => Expr.noConfusion heq) ih
  | block _ ih =>
    exact .node (fun _ heq => Expr.noConfusion heq) fun part hpart => .of_payload (ih part hpart)
  | cond _ _ _ _ _ ihTest ihYes ihNo =>
    refine .node (fun _ heq => Expr.noConfusion heq) ?_
    simpa [Expr.children, ihTest, ihYes] using ihNo
  | loop _ _ _ ihTest ihBody =>
    refine .node (fun _ heq => Expr.noConfusion heq) (List.forall_mem_append.mpr ⟨?_, ?_⟩)
    · exact fun part hpart => ihTest part (Option.mem_toList.mp hpart)
    · exact List.forall_mem_singleton.mpr ihBody
  | object _ _ ih =>
    exact .node (fun _ heq => Expr.noConfusion heq) (List.forall_mem_map.mpr ih)

theorem Value.IsLiteral.canonical {v : Value} (h : v.IsLiteral) : v.Canonical := by
  cases v with
  | object | array => exact h.elim
  | _ => trivial

theorem Value.IsLiteral.finite {v : Value} (h : v.IsLiteral) : v.Finite := by
  cases v with
  | number x => exact h.1
  | object | array => exact h.elim
  | _ => trivial

/-! ### Statements and scripts -/

theorem Statement.ofJson?_toJson {s : Statement} (h : s.expression.Literals Value.Canonical) :
    ofJson? s.toJson = some s := by
  have hexpression : Expr.ofJson? s.expression.toJson = some s.expression :=
    Expr.read?_toJson h (Nat.le_refl _) false
  have hlocation : nullable? Location.ofJson? ((s.location.map Location.toJson).getD .null) =
      some s.location :=
    nullable?_map (fun l _ => l.ofJson?_toJson) (fun _ => nofun)
  unfold ofJson? toJson
  refine Option.bind_eq_some_iff.mpr ⟨_, record?_object (by decide) rfl, ?_⟩
  simp [hexpression, hlocation]

theorem Statement.kept_toJson {s : Statement} (h : s.expression.Literals Value.Finite) :
    s.toJson.Kept := by
  have hlocation : ((s.location.map Location.toJson).getD .null).Kept := by
    cases s.location with
    | none => exact kept_null
    | some l => exact ⟨l.fits_toJson, l.written_toJson⟩
  exact kept_object (by simp [Expr.kept_toJson h, hlocation])

theorem Table.ofList_of_ascending {α : Type} {table : Table α} (h : table.Ascending) :
    Table.ofList table = table := by
  have hfold (entries done : Table α) (h : Table.Ascending (done ++ entries)) :
      entries.foldl (fun table entry => table.insert entry.1 entry.2) done = done ++ entries := by
    induction entries generalizing done with
    | nil => simp
    | cons entry entries ih =>
      have habove : ∀ other ∈ done, other.1 < entry.1 := fun other hother =>
        (List.pairwise_append.mp h).2.2 other hother entry List.mem_cons_self
      rw [List.foldl_cons, Table.insert_of_above _ habove, ih _ (by simpa using h)]
      simp
  exact hfold table [] h

theorem Json.textTable?_map {table : Table String} (h : table.Ascending) :
    textTable? (.object (table.map fun entry => (entry.1, .string entry.2))) = some table := by
  have hentries : (table.map fun entry => (entry.1, Json.string entry.2)).mapM
      (fun entry => do return (entry.1, ← entry.2.text?)) = some table :=
    mapM_map fun _ _ => rfl
  refine Option.bind_eq_some_iff.mpr ⟨table, hentries, ?_⟩
  exact congrArg some (Table.ofList_of_ascending h)

namespace Script

/-- The document of a script is read as the script if the objects among its literals and its notes
ascend. -/
theorem ofJson?_toJson {script : Script}
    (hliterals : ∀ s ∈ script.statements, s.expression.Literals Value.Canonical)
    (hmetadata : script.metadata.Ascending) : ofJson? script.toJson = some script := by
  have hstatements : (array (script.statements.map Statement.toJson)).list? Statement.ofJson? =
      some script.statements :=
    list?_map fun s hs => Statement.ofJson?_toJson (hliterals s hs)
  unfold ofJson? toJson
  refine Option.bind_eq_some_iff.mpr ⟨_, record?_object (by decide) rfl, ?_⟩
  simp [hstatements, textTable?_map hmetadata]

/-- The text of a script keeps all of it if the doubles among its literals are finite. -/
theorem kept_toJson {script : Script}
    (h : ∀ s ∈ script.statements, s.expression.Literals Value.Finite) : script.toJson.Kept := by
  have hstatements : (array (script.statements.map Statement.toJson)).Kept :=
    kept_array (List.forall_mem_map.mpr fun s hs => Statement.kept_toJson (h s hs))
  have hmetadata : (object (script.metadata.map fun entry => (entry.1, string entry.2))).Kept :=
    kept_object (List.forall_mem_map.mpr fun _ _ => kept_string _)
  exact kept_object (by simp [kept_string, hstatements, hmetadata])

theorem metadata_of_parse {name source : String} {script : Script}
    (h : parse name source = .ok script) : script.metadata = [] := by
  obtain ⟨tokens, -, h⟩ := bind_eq_ok_iff.mp h
  obtain ⟨statements, -, h⟩ := bind_eq_ok_iff.mp h
  cases h
  rfl

end Script

/-! ### What is read is nested no deeper than the document -/

namespace Json

/-- What is read from a document is written no deeper. -/
def NoDeeper {α : Type} (value? : Json → Option α) (write : α → Json) : Prop :=
  ∀ ⦃j a⦄, value? j = some a → (write a).depth ≤ j.depth

variable {α : Type} {value? : Json → Option α} {write : α → Json}

theorem NoDeeper.list? (h : NoDeeper value? write) :
    NoDeeper (list? value?) fun as => .array (as.map write) := by
  intro j as has
  cases j with
  | array items =>
    refine Nat.succ_le_succ (depthItems_le_iff.mpr (List.forall_mem_map.mpr fun a ha => ?_))
    obtain ⟨item, hitem, hread⟩ := exists_of_mem_mapM has ha
    exact (h hread).trans (depthItems_le_iff.mp (Nat.le_refl _) item hitem)
  | _ => cases has

theorem NoDeeper.nullable? (h : NoDeeper value? write) :
    NoDeeper (nullable? value?) fun o => (o.map write).getD .null := by
  intro j o ho
  unfold Json.nullable? at ho
  split at ho
  · obtain rfl := Option.some.inj ho
    exact Nat.le_refl _
  · obtain ⟨a, ha, rfl⟩ := Option.map_eq_some_iff.mp ho
    exact h ha

@[simp] theorem depth_string (text : String) : (string text).depth = 0 := rfl

end Json

@[simp] theorem BinaryOp.depth_toJson (op : BinaryOp) : op.toJson.depth = 0 := rfl

@[simp] theorem UnaryOp.depth_toJson (op : UnaryOp) : op.toJson.depth = 0 := rfl

namespace Record

/-- All members of a record are less deep than a bound. -/
def Below (r : Record) (bound : Nat) : Prop :=
  ∀ member ∈ r.members, member.2.depth < bound

theorem below_of_members? {names : List String} {j : Json} {r : Record}
    (h : j.members? names = some r) : r.Below j.depth := by
  cases j with
  | object members =>
    simp only [members?] at h
    split_ifs at h
    obtain rfl := Option.some.inj h
    intro member hmember
    refine Nat.lt_succ_of_le (depthMembers_le_iff.mp (Nat.le_refl _) member ?_)
    exact List.mem_of_mem_filter hmember
  | _ => cases h

theorem below_of_record? {names : List String} {j : Json} {r : Record}
    (h : j.record? names = some r) : r.Below j.depth := by
  cases j with
  | array items =>
    simp only [record?] at h
    split_ifs at h
    obtain rfl := Option.some.inj h
    intro member hmember
    refine Nat.lt_succ_of_le (depthItems_le_iff.mp (Nat.le_refl _) member.2 ?_)
    exact (List.of_mem_zip hmember).2
  | _ => exact @below_of_members? names _ r h

variable {α : Type} {value? : Json → Option α} {write : α → Json} {r : Record} {bound : Nat}
  {name : String}

theorem Below.find? (h : r.Below bound) {j : Json} (hj : Table.find? name r.members = some j) :
    j.depth < bound :=
  h (name, j) (Table.mem_of_find? hj)

theorem Below.required? (h : r.Below bound) (hread : NoDeeper value? write) {a : α}
    (ha : r.required? name value? = some a) : (write a).depth < bound := by
  obtain ⟨j, hj, ha⟩ := Option.bind_eq_some_iff.mp ha
  exact Nat.lt_of_le_of_lt (hread ha) (h.find? hj)

theorem Below.optional? (h : r.Below bound) (hbound : 0 < bound) (hread : NoDeeper value? write)
    {o : Option α} (ho : r.optional? name value? = some o) :
    ((o.map write).getD .null).depth < bound := by
  unfold Record.optional? at ho
  split at ho
  · rename_i j hj
    exact Nat.lt_of_le_of_lt (hread.nullable? ho) (h.find? hj)
  · split_ifs at ho
    obtain rfl := Option.some.inj ho
    exact hbound

end Record

/-- An array or object cannot be opened in nothing. -/
theorem Json.depth_pos_of_record? {names : List String} {j : Json} {r : Record}
    (h : j.record? names = some r) : 0 < j.depth := by
  cases j with
  | array | object => exact Nat.succ_pos _
  | _ => cases h

namespace Value

theorem exists_of_mem_itemsOfJson? {items : List Json} {done read : List Value}
    (h : itemsOfJson? done items = some read) {v : Value} (hv : v ∈ read) :
    v ∈ done ∨ ∃ item ∈ items, ofJson? item = some v := by
  induction items generalizing done with
  | nil =>
    obtain rfl := Option.some.inj h
    exact .inl (List.mem_reverse.mp hv)
  | cons item items ih =>
    rw [itemsOfJson?] at h
    split at h
    · rename_i value hvalue
      rcases ih h with hdone | ⟨other, hother, hread⟩
      · rcases List.mem_cons.mp hdone with rfl | hdone
        · exact .inr ⟨item, List.mem_cons_self, hvalue⟩
        · exact .inl hdone
      · exact .inr ⟨other, List.mem_cons_of_mem _ hother, hread⟩
    · cases h

theorem exists_of_mem_fieldsOfJson? {members : List (String × Json)} {done read : Table Value}
    (h : fieldsOfJson? done members = some read) {field : String × Value} (hfield : field ∈ read) :
    field ∈ done ∨ ∃ member ∈ members, ofJson? member.2 = some field.2 := by
  induction members generalizing done with
  | nil =>
    obtain rfl := Option.some.inj h
    exact .inl hfield
  | cons member members ih =>
    rw [fieldsOfJson?] at h
    split at h
    · rename_i value hvalue
      rcases ih h with hdone | ⟨other, hother, hread⟩
      · rcases Table.mem_of_mem_insert hdone with rfl | hdone
        · exact .inr ⟨member, List.mem_cons_self, hvalue⟩
        · exact .inl hdone
      · exact .inr ⟨other, List.mem_cons_of_mem _ hother, hread⟩
    · cases h

theorem noDeeper_ofJson? : NoDeeper ofJson? toJson := by
  intro j
  induction j with
  | null | boolean | number | string =>
    intro v hv
    obtain rfl := Option.some.inj hv
    exact Nat.le_refl _
  | integer n =>
    intro v hv
    rw [ofJson?] at hv
    split at hv <;> obtain rfl := Option.some.inj hv <;> exact Nat.le_refl _
  | array items ih =>
    intro v hv
    obtain ⟨read, hread, rfl⟩ := Option.map_eq_some_iff.mp hv
    rw [toJson, itemsToJson_eq]
    refine Nat.succ_le_succ (depthItems_le_iff.mpr (List.forall_mem_map.mpr fun v hv => ?_))
    obtain hdone | ⟨item, hitem, hitemRead⟩ := exists_of_mem_itemsOfJson? hread hv
    · cases hdone
    · exact (ih item hitem hitemRead).trans (depthItems_le_iff.mp (Nat.le_refl _) item hitem)
  | object members ih =>
    intro v hv
    obtain ⟨read, hread, rfl⟩ := Option.map_eq_some_iff.mp hv
    rw [toJson, fieldsToJson_eq]
    refine Nat.succ_le_succ (depthMembers_le_iff.mpr ?_)
    refine List.forall_mem_map.mpr fun field hfield => ?_
    obtain hdone | ⟨member, hmember, hmemberRead⟩ := exists_of_mem_fieldsOfJson? hread hfield
    · cases hdone
    · exact (ih member hmember hmemberRead).trans
        (depthMembers_le_iff.mp (Nat.le_refl _) member hmember)
  | unreadable =>
    intro v hv
    cases hv

end Value

namespace Expr

theorem construct?_content {aside late : Bool} {j content : Json} {tag : String}
    (h : construct? aside j = some ⟨tag, some content, late⟩) : content.depth < j.depth := by
  unfold construct? at h
  split at h
  · rename_i members
    have hmember {key : String} {p : String × Json → Bool}
        (hfilter : members.filter p = [(key, content)]) :
        content.depth < (Json.object members).depth := by
      have hmem : (key, content) ∈ members.filter p := hfilter ▸ List.mem_singleton_self _
      exact Nat.lt_succ_of_le
        (depthMembers_le_iff.mp (Nat.le_refl _) _ (List.mem_of_mem_filter hmem))
    simp only at h
    split at h
    · obtain ⟨tag, -, heq⟩ := Option.map_eq_some_iff.mp h
      cases heq
    · rename_i hcontents
      split_ifs at h
      obtain ⟨tag, -, heq⟩ := Option.map_eq_some_iff.mp h
      cases heq
      exact hmember hcontents
    · cases h
  · obtain ⟨tag, -, heq⟩ := Option.map_eq_some_iff.mp h
    cases heq
    simp only [Json.depth, depthItems]
    omega
  · cases h

theorem depth_pos_of_construct? {aside : Bool} {j : Json} {c : Construct}
    (h : construct? aside j = some c) : 0 < j.depth := by
  cases j with
  | array | object => exact Nat.succ_pos _
  | _ => cases h

/-- A construct is no deeper than a document if its content is no deeper than the content there. -/
theorem depth_tagged_le {aside late : Bool} {j content written : Json} {name tag : String}
    (h : construct? aside j = some ⟨name, some content, late⟩)
    (hcontent : written.depth ≤ content.depth) : (tagged tag written).depth ≤ j.depth := by
  rw [depth_tagged]
  exact Nat.lt_of_le_of_lt hcontent (construct?_content h)

/-- A construct whose parts are named is no deeper than a document if they are less deep than the
content there. -/
theorem depth_parts_le {aside late : Bool} {j content : Json} {name tag : String}
    {names : List String} {r : Record} {parts : List (String × Json)}
    (h : construct? aside j = some ⟨name, some content, late⟩)
    (hr : content.members? names = some r)
    (hparts : 0 < content.depth → ∀ part ∈ parts, part.2.depth < content.depth) :
    (tagged tag (.object parts)).depth ≤ j.depth := by
  have hpos : 0 < content.depth := by
    cases content with
    | object => exact Nat.succ_pos _
    | _ => cases hr
  have hle : depthMembers parts ≤ content.depth - 1 :=
    depthMembers_le_iff.mpr fun part hpart => Nat.le_sub_one_of_lt (hparts hpos part hpart)
  refine depth_tagged_le h ?_
  rw [Json.depth]
  omega

/-- What is read as an expression is nested no deeper than the document it is read from. -/
theorem noDeeper_read? (n : Nat) : ∀ aside, NoDeeper (read? n aside) toJson := by
  induction n with
  | zero => exact fun _ _ _ h => nomatch h
  | succ n ih =>
    intro inherited j e h
    obtain ⟨⟨tag, content, aside⟩, hconstruct, h⟩ := Option.bind_eq_some_iff.mp h
    have hread := ih aside
    simp only at h
    split at h <;> simp only [Option.bind_eq_bind, Option.bind_eq_some_iff, Option.pure_def,
      Option.some.injEq, reduceCtorEq] at h
    · obtain ⟨v, hv, rfl⟩ := h
      exact depth_tagged_le hconstruct (Value.noDeeper_ofJson? hv)
    · obtain ⟨name, hname, rfl⟩ := h
      exact depth_tagged_le hconstruct (Nat.zero_le _)
    · obtain ⟨r, hr, left, hleft, op, -, right, hright, rfl⟩ := h
      have hleft := (Record.below_of_members? hr).required? hread hleft
      have hright := (Record.below_of_members? hr).required? hread hright
      exact depth_parts_le hconstruct hr fun hpos => by simp [hleft, hright, hpos]
    · obtain ⟨r, hr, op, -, operand, hoperand, rfl⟩ := h
      have hoperand := (Record.below_of_members? hr).required? hread hoperand
      exact depth_parts_le hconstruct hr fun hpos => by simp [hoperand, hpos]
    · obtain ⟨r, hr, name, -, args, hargs, rfl⟩ := h
      have hargs := (Record.below_of_members? hr).required? hread.list? hargs
      rw [toJson, allToJson_eq]
      exact depth_parts_le hconstruct hr fun hpos => by simp [hargs, hpos]
    · obtain ⟨items, hitems, rfl⟩ := h
      rw [toJson, allToJson_eq]
      exact depth_tagged_le hconstruct (hread.list? hitems)
    · obtain ⟨r, hr, test, htest, yes, hyes, no, hno, rfl⟩ := h
      have htest := (Record.below_of_members? hr).required? hread htest
      have hyes := (Record.below_of_members? hr).required? hread hyes
      rw [toJson_cond]
      refine depth_parts_le hconstruct hr fun hpos => ?_
      have hno := (Record.below_of_members? hr).optional? hpos hread hno
      simp [htest, hyes, hno]
    · obtain ⟨r, hr, test, htest, body, hbody, rfl⟩ := h
      have hbody := (Record.below_of_members? hr).required? hread hbody
      rw [toJson_loop]
      refine depth_parts_le hconstruct hr fun hpos => ?_
      have htest := (Record.below_of_members? hr).optional? hpos hread htest
      simp [htest, hbody]
    · obtain ⟨r, hr, target, -, value, hvalue, rfl⟩ := h
      have hvalue := (Record.below_of_members? hr).required? hread hvalue
      exact depth_parts_le hconstruct hr fun hpos => by simp [hvalue, hpos]
    · obtain ⟨r, hr, name, -, value, hvalue, rfl⟩ := h
      have hvalue := (Record.below_of_members? hr).required? hread hvalue
      exact depth_parts_le hconstruct hr fun hpos => by simp [hvalue, hpos]
    · obtain ⟨entries, hentries, rfl⟩ := h
      rw [toJson, entriesToJson_eq]
      refine depth_tagged_le hconstruct (NoDeeper.list? (fun pair entry hentry => ?_) hentries)
      split at hentry
      · obtain ⟨key, -, hentry⟩ := Option.bind_eq_some_iff.mp hentry
        obtain ⟨e, he, hentry⟩ := Option.bind_eq_some_iff.mp hentry
        obtain rfl := Option.some.inj hentry
        have hle := hread he
        simp only [Json.depth, depthItems]
        omega
      · cases hentry
    · obtain ⟨items, hitems, rfl⟩ := h
      rw [toJson, allToJson_eq]
      exact depth_tagged_le hconstruct (hread.list? hitems)
    · obtain ⟨r, hr, target, htarget, name, -, rfl⟩ := h
      have htarget := (Record.below_of_members? hr).required? hread htarget
      exact depth_parts_le hconstruct hr fun hpos => by simp [htarget, hpos]
    · obtain ⟨r, hr, target, htarget, position, hposition, rfl⟩ := h
      have htarget := (Record.below_of_members? hr).required? hread htarget
      have hposition := (Record.below_of_members? hr).required? hread hposition
      exact depth_parts_le hconstruct hr fun hpos => by simp [htarget, hposition]
    all_goals
      subst h
      exact depth_pos_of_construct? hconstruct

end Expr

theorem Location.noDeeper_ofJson? : NoDeeper ofJson? toJson := by
  intro j l h
  obtain ⟨r, hr, -⟩ := Option.bind_eq_some_iff.mp h
  exact depth_pos_of_record? hr

theorem Statement.noDeeper_ofJson? : NoDeeper ofJson? toJson := by
  intro j s h
  obtain ⟨r, hr, h⟩ := Option.bind_eq_some_iff.mp h
  obtain ⟨expression, hexpression, h⟩ := Option.bind_eq_some_iff.mp h
  obtain ⟨location, hlocation, h⟩ := Option.bind_eq_some_iff.mp h
  obtain rfl := Option.some.inj h
  have hbelow := Record.below_of_record? hr
  have hexpression : expression.toJson.depth < j.depth :=
    hbelow.required? (fun j _ he => Expr.noDeeper_read? j.depth false he) hexpression
  have hlocation := hbelow.optional? (depth_pos_of_record? hr) Location.noDeeper_ofJson? hlocation
  simp only [toJson, Json.depth, depthMembers]
  omega

theorem Json.noDeeper_textTable? : NoDeeper textTable? fun table =>
    .object (table.map fun entry => (entry.1, .string entry.2)) := by
  intro j table h
  have hle : depthMembers (table.map fun entry => (entry.1, Json.string entry.2)) ≤ 0 :=
    depthMembers_le_iff.mpr (List.forall_mem_map.mpr fun _ _ => Nat.le_refl _)
  cases j with
  | object members =>
    simp only [Json.depth]
    omega
  | _ => cases h

namespace Script

/-- What is read as a script is nested no deeper than the document it is read from. -/
theorem noDeeper_ofJson? : NoDeeper ofJson? toJson := by
  intro j script h
  obtain ⟨r, hr, h⟩ := Option.bind_eq_some_iff.mp h
  obtain ⟨name, -, h⟩ := Option.bind_eq_some_iff.mp h
  obtain ⟨statements, hstatements, h⟩ := Option.bind_eq_some_iff.mp h
  obtain ⟨source, -, h⟩ := Option.bind_eq_some_iff.mp h
  obtain ⟨metadata, hmetadata, h⟩ := Option.bind_eq_some_iff.mp h
  obtain rfl := Option.some.inj h
  have hbelow := Record.below_of_record? hr
  have hstatements := hbelow.required? Statement.noDeeper_ofJson?.list? hstatements
  have hmetadata := hbelow.required? noDeeper_textTable? hmetadata
  simp only [toJson, Json.depth, depthMembers] at hstatements hmetadata ⊢
  omega

/-- No text is read as a script whose document is nested too deep. -/
theorem depth_le_of_parseJson? {text : String} {script : Script}
    (h : parseJson? text = some script) : script.toJson.depth ≤ maxOpen := by
  obtain ⟨j, hj, hscript⟩ := Option.bind_eq_some_iff.mp h
  exact (noDeeper_ofJson? hscript).trans (depth_le_of_parse? hj)

/-- A script that was read from a text is read back from its JSON text exactly if its document is
not nested too deep. That the text of a finite double is read as the same double rests on
`readNumber?`, which reads decimals exactly. -/
theorem parseJson?_compact_iff {name source : String} {script : Script}
    (h : parse name source = .ok script) :
    parseJson? script.toJson.compact = some script ↔ script.toJson.depth ≤ maxOpen := by
  refine ⟨depth_le_of_parseJson?, fun hdepth => ?_⟩
  have hliterals : ∀ s ∈ script.statements, s.expression.Literals Value.IsLiteral :=
    fun s hs => .of_payload (parse_shaped h s hs).literals
  have hkept : script.toJson.Kept :=
    kept_toJson fun s hs => (hliterals s hs).imp fun _ hv => hv.finite
  rw [parseJson?, hkept.parse?_compact hdepth]
  refine ofJson?_toJson (fun s hs => (hliterals s hs).imp fun _ hv => hv.canonical) ?_
  rw [metadata_of_parse h]
  exact List.Pairwise.nil

/-- A text with most constructs of the language. -/
def sampleText : String :=
  "let o = \x7bk: [1, -2.5, \"é\"]\x7d; while len(o.k) < 3 \x7b" ++
    "if o.k[0] == 1 \x7b break \x7d else \x7b f() \x7d \x7d"

theorem parseJson?_compact_sample : ∃ script, parse "main" sampleText = .ok script ∧
    script.toJson.depth ≤ maxOpen ∧ parseJson? script.toJson.compact = some script := by
  have hcheck : (parse "main" sampleText).toOption.any
      (fun script => script.toJson.depth ≤ maxOpen) = true := by
    decide +kernel
  obtain ⟨script, hparse, hcheck⟩ := exists_ok_of_check hcheck
  have hdepth : script.toJson.depth ≤ maxOpen := of_decide_eq_true hcheck
  exact ⟨script, hparse, hdepth, (parseJson?_compact_iff hparse).mpr hdepth⟩

/-- A text of 62 negations, each of which takes two levels of the document. -/
def negations : String :=
  String.ofList (List.replicate 62 '!' ++ "true".toList)

/-- The script of 62 negations is nested too deep to be read back. -/
theorem exists_parseJson?_compact_ne : ∃ script,
    parse "main" negations = .ok script ∧ parseJson? script.toJson.compact ≠ some script := by
  have hcheck : (parse "main" negations).toOption.any
      (fun script => maxOpen < script.toJson.depth) = true := by
    decide +kernel
  obtain ⟨script, hparse, hdepth⟩ := exists_ok_of_check hcheck
  refine ⟨script, hparse, fun hread => ?_⟩
  exact Nat.not_le.mpr (of_decide_eq_true hdepth) (depth_le_of_parseJson? hread)

end Script

end Covenant
