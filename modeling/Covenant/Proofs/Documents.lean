import Covenant.Program.Json
import Covenant.Proofs.Integers
import Covenant.Proofs.JsonText
import Covenant.Proofs.Values

/-!
# Documents are read as what they were made from

The document of a location, an operator, an instruction, a value or a program is read as that again.
Members are looked up by name, so that the order in which a record is written does not matter; a
value comes back if its objects ascend, and a set of permissions if its names do.

## Main definitions

* `Permissions.Ascending` : the names of a set ascend, as the sets that grants make.

## Main results

* `Value.ofJson?_toJson`, `Op.ofJson?_toJson`, `Location.ofJson?_toJson`.
* `Program.ofJson?_toJson` : the document of a program is read as the program.
* `Program.written_toJson`, `Program.fits_toJson` : what the text of a program keeps.
-/

namespace Covenant

/-! ### Records -/

namespace Json

theorem writtenItems_eq (items : List Json) : writtenItems items = items.map written := by
  induction items with
  | nil => rfl
  | cons item items ih => rw [writtenItems, ih, List.map_cons]

theorem writtenItems_map {α : Type} {f : α → Json} {l : List α}
    (h : ∀ a ∈ l, (f a).written = f a) : writtenItems (l.map f) = l.map f := by
  rw [writtenItems_eq, List.map_map]
  exact List.map_congr_left h

theorem writtenMembers_eq (members : List (String × Json)) :
    writtenMembers members = members.map fun member => (member.1, member.2.written) := by
  induction members with
  | nil => rfl
  | cons member members ih => rw [writtenMembers, ih, List.map_cons]

theorem fitsItems_iff {items : List Json} : FitsItems items ↔ ∀ item ∈ items, item.Fits := by
  induction items with
  | nil => simp [FitsItems]
  | cons item items ih => simp [FitsItems, ih]

theorem fitsMembers_iff {members : List (String × Json)} :
    FitsMembers members ↔ ∀ member ∈ members, member.2.Fits := by
  induction members with
  | nil => simp [FitsMembers]
  | cons member members ih => simp [FitsMembers, ih]

/-- An object with all members of a record, each once, gives them by name. -/
theorem members?_object {names : List String} {members : List (String × Json)}
    (hdistinct : keysDistinct names = true) (hkeys : Table.keys members = names) :
    (object members).members? names = some ⟨false, members⟩ := by
  have hall : ∀ member ∈ members, names.contains member.1 = true := by
    intro member hmember
    rw [← hkeys, List.contains_iff_mem]
    exact List.mem_map_of_mem hmember
  rw [members?, List.filter_eq_self.mpr hall]
  simp only [hkeys, hdistinct, if_true]

theorem record?_object {names : List String} {members : List (String × Json)}
    (hdistinct : keysDistinct names = true) (hkeys : Table.keys members = names) :
    (object members).record? names = some ⟨false, members⟩ :=
  members?_object hdistinct hkeys

theorem fits_natCast {n : Nat} (h : n < 2 ^ 64) : (integer n).Fits :=
  ⟨by omega, by omega⟩

theorem natural?_natCast {n bound : Nat} (h : n < bound) :
    (integer n).natural? bound = some n := by
  rw [natural?, if_pos ⟨Int.natCast_nonneg n, Int.ofNat_lt.mpr h⟩, Int.toNat_natCast]

@[simp] theorem word8?_toNat (w : UInt8) : (integer w.toNat).word8? = some w := by
  rw [word8?, natural?_natCast w.toNat_lt_size]
  simp

@[simp] theorem word16?_toNat (w : UInt16) : (integer w.toNat).word16? = some w := by
  rw [word16?, natural?_natCast w.toNat_lt_size]
  simp

@[simp] theorem word32?_toNat (w : UInt32) : (integer w.toNat).word32? = some w := by
  rw [word32?, natural?_natCast w.toNat_lt_size]
  simp

@[simp] theorem word64?_toNat (w : UInt64) : (integer w.toNat).word64? = some w := by
  rw [word64?, natural?_natCast w.toNat_lt_size]
  simp

@[simp] theorem text?_string (text : String) : (string text).text? = some text := rfl

/-- A list is read back if each of its items is. -/
theorem list?_map {α : Type} {item? : Json → Option α} {f : α → Json} {l : List α}
    (h : ∀ a ∈ l, item? (f a) = some a) : (array (l.map f)).list? item? = some l :=
  mapM_map h

end Json

namespace Record

variable {α : Type} (positional : Bool) (key name : String) (j : Json)
  (members : List (String × Json)) (value? : Json → Option α)

@[simp] theorem required?_cons : required? ⟨positional, (key, j) :: members⟩ name value? =
    if key = name then value? j else required? ⟨positional, members⟩ name value? := by
  by_cases h : key = name <;> simp [required?, Table.find?, h]

@[simp] theorem optional?_cons : optional? ⟨positional, (key, j) :: members⟩ name value? =
    if key = name then j.nullable? value? else optional? ⟨positional, members⟩ name value? := by
  by_cases h : key = name <;> simp [optional?, Table.find?, h]

@[simp] theorem defaulted?_cons (default : α) :
    defaulted? ⟨positional, (key, j) :: members⟩ name default value? =
      if key = name then value? j else defaulted? ⟨positional, members⟩ name default value? := by
  by_cases h : key = name <;> simp [defaulted?, Table.find?, h]

end Record

open Json

/-! ### Locations and operators -/

theorem Location.ofJson?_toJson (l : Location) : ofJson? l.toJson = some l := by
  unfold ofJson? toJson
  refine Option.bind_eq_some_iff.mpr ⟨_, record?_object (by decide) rfl, ?_⟩
  simp

@[simp] theorem BinaryOp.ofJson?_toJson (aside : Bool) (op : BinaryOp) :
    ofJson? aside op.toJson = some op := by
  cases op <;> rfl

@[simp] theorem UnaryOp.ofJson?_toJson (aside : Bool) (op : UnaryOp) :
    ofJson? aside op.toJson = some op := by
  cases op <;> rfl

theorem SourceEntry.ofJson?_toJson (entry : SourceEntry) : ofJson? entry.toJson = some entry := by
  unfold ofJson? toJson
  refine Option.bind_eq_some_iff.mpr ⟨_, record?_object (by decide) rfl, ?_⟩
  simp [Location.ofJson?_toJson]

theorem levelOfJson?_levelToJson (level : UInt8) :
    levelOfJson? (levelToJson level) = some level := by
  unfold levelOfJson? levelToJson
  refine Option.bind_eq_some_iff.mpr ⟨_, record?_object (by decide) rfl, ?_⟩
  simp

/-! ### Instructions -/

namespace Op

/-- An instruction with operands is read by its name. -/
theorem ofJson?_single (name : String) {operands : Json} (h : operands ≠ .null) :
    ofJson? (single name operands) = withOperands? name operands := by
  unfold ofJson? single choice?
  split
  · rename_i heq
    cases heq
  · rename_i heq
    cases heq
    exact absurd rfl h
  · rename_i heq
    cases heq
    rfl
  · rename_i heq
    cases heq

theorem ofJson?_toJson (op : Op) : ofJson? op.toJson = some op := by
  cases op with
  | constant | loadName | storeName | defineName | makeArray | makeObject | getProperty | jump
  | jumpIfFalse | binary | unary | requireBool | enterScope =>
    rw [toJson, ofJson?_single]
    · simp [withOperands?, word, short]
    · nofun
  | loadLocal | storeLocal | shortCircuit | call | loopEnter =>
    rw [toJson, ofJson?_single _ (by nofun)]
    simp only [withOperands?]
    refine Option.bind_eq_some_iff.mpr ⟨_, record?_object (by decide) rfl, ?_⟩
    simp [word, short]
  | getIndex | pop | exitScope | loopExit | break_ | continue_ | tick => rfl

end Op

/-! ### Permissions -/

namespace Permissions

/-- The names of a set ascend. -/
def Ascending (p : Permissions) : Prop :=
  p.names.Pairwise (· < ·)

theorem mem_insertInto {name other : String} {names : List String} :
    other ∈ insertInto name names ↔ other = name ∨ other ∈ names := by
  induction names with
  | nil => simp [insertInto]
  | cons n names ih =>
    unfold insertInto
    split_ifs with heq hlt
    · subst heq
      simp
    · simp
    · simp only [List.mem_cons, ih]
      tauto

theorem Ascending.grant {p : Permissions} (h : p.Ascending) (name : String) :
    (p.grant name).Ascending := by
  obtain ⟨names⟩ := p
  change names.Pairwise (· < ·) at h
  change (insertInto name names).Pairwise (· < ·)
  induction names with
  | nil => simp [insertInto]
  | cons n names ih =>
    obtain ⟨hn, hnames⟩ := List.pairwise_cons.mp h
    unfold insertInto
    split_ifs with heq hlt
    · exact h
    · refine List.pairwise_cons.mpr ⟨?_, h⟩
      exact List.forall_mem_cons.mpr
        ⟨hlt, fun other hother => String.lt_trans hlt (hn other hother)⟩
    · refine List.pairwise_cons.mpr ⟨fun other hother => ?_, ih hnames⟩
      rcases mem_insertInto.mp hother with rfl | hother
      · by_contra hge
        exact heq (String.le_antisymm (String.not_lt.mp hge) (String.not_lt.mp hlt))
      · exact hn other hother

/-- The set of a list's members ascends, whatever the order of the list. -/
theorem ascending_ofList (names : List String) : (ofList names).Ascending := by
  have hfold (names : List String) (p : Permissions) (h : p.Ascending) :
      (names.foldl Permissions.grant p).Ascending := by
    induction names generalizing p with
    | nil => exact h
    | cons name names ih => exact ih _ (h.grant name)
  exact hfold names none List.Pairwise.nil

/-- A permission above all others comes last. -/
theorem insertInto_of_above {name : String} {names : List String} (h : ∀ n ∈ names, n < name) :
    insertInto name names = names ++ [name] := by
  induction names with
  | nil => rfl
  | cons n names ih =>
    have hn : n < name := h n List.mem_cons_self
    have hrest := ih fun other hother => h other (List.mem_cons_of_mem _ hother)
    have hne : name ≠ n := by
      rintro rfl
      exact String.lt_irrefl name hn
    rw [insertInto, if_neg hne, if_neg (String.lt_asymm hn), hrest]
    rfl

theorem ofList_names {p : Permissions} (h : p.Ascending) : ofList p.names = p := by
  have hfold (names done : List String) (h : (done ++ names).Pairwise (· < ·)) :
      names.foldl Permissions.grant ⟨done⟩ = ⟨done ++ names⟩ := by
    induction names generalizing done with
    | nil => simp
    | cons name names ih =>
      have habove : ∀ n ∈ done, n < name := fun n hn =>
        (List.pairwise_append.mp h).2.2 n hn name List.mem_cons_self
      rw [List.foldl_cons, Permissions.grant, insertInto_of_above habove, ih _ (by simpa using h),
        List.append_assoc]
      rfl
  exact hfold p.names [] h

theorem ofJson?_toJson {p : Permissions} (h : p.Ascending) : ofJson? p.toJson = some p := by
  have hnames : p.toJson.list? text? = some p.names := list?_map fun _ _ => rfl
  rw [ofJson?, hnames, Option.map_some, ofList_names h]

end Permissions

/-! ### Values -/

namespace Value

theorem itemsToJson_eq (items : List Value) : itemsToJson items = items.map toJson := by
  induction items with
  | nil => rfl
  | cons item items ih => rw [itemsToJson, ih, List.map_cons]

theorem fieldsToJson_eq (fields : List (String × Value)) :
    fieldsToJson fields = fields.map fun field => (field.1, field.2.toJson) := by
  induction fields with
  | nil => rfl
  | cons field fields ih => rw [fieldsToJson, ih, List.map_cons]

theorem itemsOfJson?_map {items : List Value} (h : ∀ item ∈ items, ofJson? item.toJson = some item)
    (done : List Value) : itemsOfJson? done (items.map toJson) = some (done.reverse ++ items) := by
  induction items generalizing done with
  | nil => simp [itemsOfJson?]
  | cons item items ih =>
    have hrest := ih (fun other hother => h other (List.mem_cons_of_mem _ hother)) (item :: done)
    rw [List.map_cons, itemsOfJson?, h item List.mem_cons_self]
    simpa using hrest

/-- Fields in ascending order are read one behind the other. -/
theorem fieldsOfJson?_map {fields : List (String × Value)}
    (h : ∀ field ∈ fields, ofJson? field.2.toJson = some field.2) (done : Table Value)
    (hascending : Table.Ascending (done ++ fields)) :
    fieldsOfJson? done (fields.map fun field => (field.1, field.2.toJson)) =
      some (done ++ fields) := by
  induction fields generalizing done with
  | nil => simp [fieldsOfJson?]
  | cons field fields ih =>
    have habove : ∀ entry ∈ done, entry.1 < field.1 := fun entry hentry =>
      (List.pairwise_append.mp hascending).2.2 entry hentry field List.mem_cons_self
    have hrest := ih (fun other hother => h other (List.mem_cons_of_mem _ hother))
      (done ++ [field]) (by simpa using hascending)
    rw [List.map_cons, fieldsOfJson?, h field List.mem_cons_self]
    simpa [Table.insert_of_above _ habove] using hrest

/-- The document of a value is read as the value if its objects ascend. -/
theorem ofJson?_toJson {v : Value} (h : v.Canonical) : ofJson? v.toJson = some v := by
  induction v with
  | string text => rfl
  | number x => rfl
  | integer n => rw [toJson, ofJson?, Number.integer?_toInt]
  | boolean flag => rfl
  | null => rfl
  | array items ih =>
    have hitems := canonicalItems_iff.mp h
    rw [toJson, ofJson?, itemsToJson_eq,
      itemsOfJson?_map (fun item hitem => ih item hitem (hitems item hitem))]
    rfl
  | object fields ih =>
    have hfields := canonicalFields_iff.mp h.2
    rw [toJson, ofJson?, fieldsToJson_eq,
      fieldsOfJson?_map (fun field hfield => ih field hfield (hfields field hfield)) [] h.1]
    rfl

theorem fits_toJson (v : Value) : v.toJson.Fits := by
  induction v with
  | integer n =>
    have hlow := n.le_toInt
    have hhigh := n.toInt_lt
    exact ⟨hlow, by omega⟩
  | array items ih =>
    rw [toJson, itemsToJson_eq]
    exact fitsItems_iff.mpr (List.forall_mem_map.mpr ih)
  | object fields ih =>
    rw [toJson, fieldsToJson_eq]
    exact fitsMembers_iff.mpr (List.forall_mem_map.mpr ih)
  | _ => trivial

/-- The text of a value keeps all of it if its doubles are finite. -/
theorem written_toJson {v : Value} (h : v.Finite) : v.toJson.written = v.toJson := by
  induction v with
  | number x => exact if_pos h
  | array items ih =>
    have hitems := finiteItems_iff.mp h
    rw [toJson, written, itemsToJson_eq,
      writtenItems_map fun item hitem => ih item hitem (hitems item hitem)]
  | object fields ih =>
    have hfields := finiteFields_iff.mp h
    rw [toJson, written, fieldsToJson_eq, writtenMembers_eq, List.map_map]
    refine congrArg Json.object (List.map_congr_left fun field hfield => ?_)
    exact congrArg (Prod.mk field.1) (ih field hfield (hfields field hfield))
  | _ => rfl

end Value

/-! ### Programs -/

namespace Location

theorem fits_toJson (l : Location) : l.toJson.Fits :=
  ⟨trivial, fits_natCast l.startLine.toNat_lt, fits_natCast l.startColumn.toNat_lt,
    fits_natCast l.endLine.toNat_lt, fits_natCast l.endColumn.toNat_lt, trivial⟩

theorem written_toJson (l : Location) : l.toJson.written = l.toJson := rfl

end Location

namespace Op

theorem fits_word (n : UInt32) : (word n).Fits :=
  fits_natCast (Nat.lt_trans n.toNat_lt (by decide))

theorem fits_short (n : UInt16) : (short n).Fits :=
  fits_natCast (Nat.lt_trans n.toNat_lt (by decide))

theorem fits_toJson (op : Op) : op.toJson.Fits := by
  cases op with
  | constant | loadName | storeName | defineName | makeArray | makeObject | getProperty | jump
  | jumpIfFalse => exact ⟨fits_word _, trivial⟩
  | enterScope => exact ⟨fits_short _, trivial⟩
  | loadLocal | storeLocal => exact ⟨⟨fits_short _, fits_short _, trivial⟩, trivial⟩
  | shortCircuit => exact ⟨⟨trivial, fits_word _, trivial⟩, trivial⟩
  | call => exact ⟨⟨fits_word _, fits_short _, trivial⟩, trivial⟩
  | loopEnter => exact ⟨⟨fits_word _, fits_word _, trivial⟩, trivial⟩
  | binary | unary | requireBool => exact ⟨trivial, trivial⟩
  | getIndex | pop | exitScope | loopExit | break_ | continue_ | tick => trivial

theorem written_toJson (op : Op) : op.toJson.written = op.toJson := by
  cases op <;> rfl

theorem depth_toJson_le (op : Op) : op.toJson.depth ≤ 2 := by
  cases op <;>
    simp [toJson, single, word, short, BinaryOp.toJson, UnaryOp.toJson, Json.depth, depthMembers]

end Op

namespace Program

/-- The document of a program is read as the program. -/
theorem ofJson?_toJson {p : Program} (hdeclared : p.declared.Ascending)
    (hconstants : ∀ v ∈ p.constants, v.Canonical) : ofJson? p.toJson = some p := by
  have hcode : (array (p.code.toList.map Op.toJson)).list? Op.ofJson? = some p.code.toList :=
    list?_map fun op _ => op.ofJson?_toJson
  have hpool : (array (p.constants.toList.map Value.toJson)).list? Value.ofJson? =
      some p.constants.toList :=
    list?_map fun v hv => Value.ofJson?_toJson (hconstants v (Array.mem_toList_iff.mp hv))
  have hentries : (array (p.sourceMap.map SourceEntry.toJson)).list? SourceEntry.ofJson? =
      some p.sourceMap :=
    list?_map fun entry _ => entry.ofJson?_toJson
  unfold ofJson? toJson
  refine Option.bind_eq_some_iff.mpr ⟨_, record?_object (by decide) rfl, ?_⟩
  simp [levelOfJson?_levelToJson, Permissions.ofJson?_toJson hdeclared, hcode, hpool, hentries]

theorem fits_toJson (p : Program) : p.toJson.Fits := by
  refine ⟨trivial, ⟨fits_natCast (Nat.lt_trans p.level.toNat_lt (by decide)), trivial⟩,
    ?_, ?_, ?_, ?_, trivial⟩
  · exact fitsItems_iff.mpr (List.forall_mem_map.mpr fun _ _ => trivial)
  · exact fitsItems_iff.mpr (List.forall_mem_map.mpr fun op _ => op.fits_toJson)
  · exact fitsItems_iff.mpr (List.forall_mem_map.mpr fun v _ => v.fits_toJson)
  · refine fitsItems_iff.mpr (List.forall_mem_map.mpr fun entry _ => ?_)
    exact ⟨fits_natCast (Nat.lt_trans entry.offset.toNat_lt (by decide)),
      entry.location.fits_toJson, trivial⟩

/-- What the text of a program keeps: all but the doubles among its constants that are not
finite. -/
theorem written_toJson_eq (p : Program) : p.toJson.written = .object [
    ("name", .string p.name),
    ("config", levelToJson p.level),
    ("capabilities", p.declared.toJson),
    ("code", .array (p.code.toList.map Op.toJson)),
    ("constants", .array (p.constants.toList.map fun v => v.toJson.written)),
    ("source_map", .array (p.sourceMap.map SourceEntry.toJson))] := by
  have hdeclared : writtenItems (p.declared.names.map string) = p.declared.names.map string :=
    writtenItems_map fun _ _ => rfl
  have hcode : writtenItems (p.code.toList.map Op.toJson) = p.code.toList.map Op.toJson :=
    writtenItems_map fun op _ => op.written_toJson
  have hentries : writtenItems (p.sourceMap.map SourceEntry.toJson) =
      p.sourceMap.map SourceEntry.toJson :=
    writtenItems_map fun _ _ => rfl
  simp only [toJson, levelToJson, Permissions.toJson, written, writtenMembers, hdeclared, hcode,
    hentries, writtenItems_eq (p.constants.toList.map Value.toJson), List.map_map]
  rfl

/-- The text of a program keeps all of it if the doubles among its constants are finite. -/
theorem written_toJson {p : Program} (h : ∀ v ∈ p.constants, v.Finite) :
    p.toJson.written = p.toJson := by
  have hpool : (p.constants.toList.map fun v => v.toJson.written) =
      p.constants.toList.map Value.toJson :=
    List.map_congr_left fun v hv => Value.written_toJson (h v (Array.mem_toList_iff.mp hv))
  rw [written_toJson_eq, hpool, toJson]

/-- Constants are nested two deep in a program, and nothing else is nested deeper than four. -/
theorem depth_toJson_le {p : Program} {depth : Nat} (hdepth : 2 ≤ depth)
    (h : ∀ v ∈ p.constants, v.toJson.depth ≤ depth) : p.toJson.depth ≤ depth + 2 := by
  have hcode : depthItems (p.code.toList.map Op.toJson) ≤ depth :=
    depthItems_le_iff.mpr (List.forall_mem_map.mpr fun op _ => op.depth_toJson_le.trans hdepth)
  have hpool : depthItems (p.constants.toList.map Value.toJson) ≤ depth :=
    depthItems_le_iff.mpr (List.forall_mem_map.mpr fun v hv => h v (Array.mem_toList_iff.mp hv))
  have hentries : depthItems (p.sourceMap.map SourceEntry.toJson) ≤ depth :=
    depthItems_le_iff.mpr (List.forall_mem_map.mpr fun entry _ => hdepth)
  have hdeclared : depthItems (p.declared.names.map Json.string) ≤ depth :=
    depthItems_le_iff.mpr (List.forall_mem_map.mpr fun _ _ => Nat.zero_le _)
  simp only [toJson, Json.depth, depthMembers, levelToJson, Permissions.toJson]
  omega

end Program

end Covenant
