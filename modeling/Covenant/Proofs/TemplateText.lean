import Covenant.Proofs.ScriptText
import Covenant.Proofs.TemplateRegistration

/-!
# The text of a registry of templates

The text of all templates is loaded into an empty registry as what it was made from. A default that
is null would be lost, since a member that is null reads like one that is left out, but no type
takes null, so no template with such a default is registered. All other defaults come back, kind for
kind, if JSON has a form for them.

## Main definitions

* `Template.Defaults`, `TemplateRegistry.Defaults`, `TemplateCall.Defaults` : the defaults of a
  template, of all templates in a registry, and of a template to be registered have a property.

## Main results

* `Template.ofJson?_toJson` : the document of a well-formed template is read as the template.
* `Template.canonical_of_ofJson?` : the objects among the defaults of what is read ascend.
* `TemplateRegistry.Consistent.load_text` : the text of a consistent registry is loaded as it.
* `load_text_run` : the text of a registry that calls have made is loaded as that registry.
-/

namespace Covenant

open Json

/-! ### Records with members that may be left out -/

theorem keysDistinct_iff {keys : List String} : keysDistinct keys = true ↔ keys.Nodup := by
  induction keys with
  | nil => simp [keysDistinct]
  | cons key keys ih => simp [keysDistinct, ih]

/-- An object with some members of a record, in their order, gives them by name. -/
theorem record?_of_sublist {names : List String} {members : List (String × Json)}
    (hdistinct : keysDistinct names = true) (hkeys : (Table.keys members).Sublist names) :
    (object members).record? names = some ⟨false, members⟩ := by
  have hall : ∀ member ∈ members, names.contains member.1 = true := fun member hmember =>
    List.contains_iff_mem.mpr (hkeys.subset (List.mem_map_of_mem hmember))
  have hnodup : keysDistinct (Table.keys members) = true :=
    keysDistinct_iff.mpr (hkeys.nodup (keysDistinct_iff.mp hdistinct))
  simp only [record?, members?, List.filter_eq_self.mpr hall, hnodup, if_true]

/-! ### Values that were read -/

namespace Value

theorem ascending_of_fieldsOfJson? {members : List (String × Json)} {done read : Table Value}
    (hdone : done.Ascending) (h : fieldsOfJson? done members = some read) : read.Ascending := by
  induction members generalizing done with
  | nil =>
    obtain rfl := Option.some.inj h
    exact hdone
  | cons member members ih =>
    rw [fieldsOfJson?] at h
    split at h
    · exact ih (hdone.insert _ _) h
    · cases h

/-- The objects of a value that was read ascend. -/
theorem canonical_of_ofJson? {j : Json} {v : Value} (h : ofJson? j = some v) : v.Canonical := by
  induction j generalizing v with
  | null | boolean | number | string =>
    obtain rfl := Option.some.inj h
    trivial
  | integer n =>
    rw [ofJson?] at h
    split at h <;>
      · obtain rfl := Option.some.inj h
        trivial
  | array items ih =>
    obtain ⟨read, hread, rfl⟩ := Option.map_eq_some_iff.mp h
    refine canonicalItems_iff.mpr fun v hv => ?_
    obtain hdone | ⟨item, hitem, hv⟩ := exists_of_mem_itemsOfJson? hread hv
    · cases hdone
    · exact ih item hitem hv
  | object members ih =>
    obtain ⟨read, hread, rfl⟩ := Option.map_eq_some_iff.mp h
    refine ⟨ascending_of_fieldsOfJson? List.Pairwise.nil hread, canonicalFields_iff.mpr ?_⟩
    intro field hfield
    obtain hdone | ⟨member, hmember, hv⟩ := exists_of_mem_fieldsOfJson? hread hfield
    · cases hdone
    · exact ih member hmember hv
  | unreadable => cases h

theorem kept_toJson {v : Value} (h : v.Finite) : v.toJson.Kept :=
  ⟨v.fits_toJson, written_toJson h⟩

theorem toJson_ne_null {v : Value} (h : v ≠ .null) : v.toJson ≠ .null := by
  cases v with
  | null => exact absurd rfl h
  | _ => nofun

end Value

/-! ### Documents of parameters -/

theorem ParameterType.ofJson?_toJson (type : ParameterType) : ofJson? type.toJson = some type := by
  cases type with
  | select options =>
    have hoptions : (Json.array (options.map Json.string)).list? text? = some options :=
      list?_map fun _ _ => rfl
    exact congrArg (Option.map select) hoptions
  | _ => decide

theorem ParameterType.kept_toJson (type : ParameterType) : type.toJson.Kept := by
  cases type with
  | select options =>
    have hoptions : (Json.array (options.map Json.string)).Kept :=
      kept_array (List.forall_mem_map.mpr fun _ _ => kept_string _)
    exact kept_object (List.forall_mem_singleton.mpr hoptions)
  | _ => exact kept_string _

theorem ParameterType.depth_toJson_le (type : ParameterType) : type.toJson.depth ≤ 2 := by
  cases type with
  | select options =>
    have hoptions : depthItems (options.map Json.string) ≤ 0 :=
      depthItems_le_iff.mpr (List.forall_mem_map.mpr fun _ _ => Nat.le_refl _)
    simpa [toJson, depth, depthMembers] using hoptions
  | _ => exact Nat.zero_le _

/-- No type takes null. -/
theorem ParameterType.ne_null_of_accept? {type : ParameterType} {value taken : Value}
    (h : type.accept? value = some taken) : value ≠ .null := by
  rintro rfl
  cases type <;> cases h

namespace Parameter

variable {p : Parameter}

/-- The document of a parameter is read as the parameter, unless null is lost as the default. -/
theorem ofJson?_toJson (hcanonical : ∀ v ∈ p.default?, v.Canonical)
    (hnull : ∀ v ∈ p.default?, v ≠ .null) : ofJson? p.toJson = some p := by
  obtain ⟨name, type, description, required, default?⟩ := p
  unfold ofJson? toJson
  cases default? with
  | none =>
    have hkeys : ["name", "type", "description", "required"].Sublist
        ["name", "type", "description", "required", "default"] := by decide
    refine Option.bind_eq_some_iff.mpr ⟨_, record?_of_sublist (by decide) hkeys, ?_⟩
    simp [ParameterType.ofJson?_toJson, Json.flag?, Record.defaulted?, Table.find?]
  | some v =>
    have hdefault : nullable? Value.ofJson? v.toJson = some (some v) := by
      rw [nullable?.eq_2 _ _ (Value.toJson_ne_null (hnull v rfl)),
        Value.ofJson?_toJson (hcanonical v rfl)]
      rfl
    refine Option.bind_eq_some_iff.mpr ⟨_, record?_of_sublist (by decide) (.refl _), ?_⟩
    simp [ParameterType.ofJson?_toJson, Json.flag?, hdefault]

theorem kept_toJson (h : ∀ v ∈ p.default?, v.Finite) : p.toJson.Kept := by
  refine kept_object (List.forall_mem_append.mpr ⟨?_, fun member hmember => ?_⟩)
  · simp only [List.forall_mem_cons]
    exact ⟨kept_string _, p.type.kept_toJson, kept_string _, ⟨trivial, rfl⟩, List.forall_mem_nil _⟩
  · obtain ⟨v, hv, rfl⟩ := Option.map_eq_some_iff.mp (Option.mem_toList.mp hmember)
    exact Value.kept_toJson (h v hv)

theorem depth_toJson_le {depth : Nat} (hdepth : 2 ≤ depth)
    (h : ∀ v ∈ p.default?, v.toJson.depth ≤ depth) : p.toJson.depth ≤ depth + 1 := by
  refine Nat.succ_le_succ (depthMembers_le_iff.mpr ?_)
  refine List.forall_mem_append.mpr ⟨?_, fun member hmember => ?_⟩
  · simp only [List.forall_mem_cons]
    exact ⟨Nat.zero_le _, p.type.depth_toJson_le.trans hdepth, Nat.zero_le _, Nat.zero_le _,
      List.forall_mem_nil _⟩
  · obtain ⟨v, hv, rfl⟩ := Option.map_eq_some_iff.mp (Option.mem_toList.mp hmember)
    exact h v hv

end Parameter

/-! ### Documents of templates -/

namespace Template

variable {t : Template}

/-- The defaults have a property. -/
def Defaults (P : Value → Prop) (t : Template) : Prop :=
  ∀ p ∈ t.parameters, ∀ v ∈ p.default?, P v

/-- A parameter that was checked has a default of its type, or none. -/
theorem checkParameters_cons {declared : List String} {p : Parameter} {rest : List Parameter}
    (h : t.checkParameters declared (p :: rest) = .ok ()) :
    (∀ v ∈ p.default?, (p.type.accept? v).isSome) ∧
      t.checkParameters (p.name :: declared) rest = .ok () := by
  rw [checkParameters] at h
  by_cases hname : isIdentifier p.name = true
  · by_cases hseen : declared.contains p.name = true
    · rw [if_pos hname, if_pos hseen] at h
      cases h
    · rw [if_pos hname, if_neg hseen] at h
      cases hdefault : p.default? with
      | none => exact ⟨fun _ hv => (nomatch hv), by simpa only [hdefault] using h⟩
      | some v =>
        cases haccept : p.type.accept? v with
        | none =>
          simp only [hdefault, ParameterType.accept, haccept] at h
          cases h
        | some taken =>
          simp only [hdefault, ParameterType.accept, haccept] at h
          refine ⟨fun w hw => ?_, h⟩
          cases hw
          rw [haccept]
          rfl
  · rw [if_neg hname] at h
    cases h

/-- A well-formed template has no default that is null. -/
theorem defaults_ne_null (h : t.validate = .ok ()) : t.Defaults (· ≠ .null) := by
  have hchecked (declared : List String) (ps : List Parameter)
      (h : t.checkParameters declared ps = .ok ()) : ∀ p ∈ ps, ∀ v ∈ p.default?, v ≠ .null := by
    induction ps generalizing declared with
    | nil => exact List.forall_mem_nil _
    | cons p rest ih =>
      obtain ⟨hdefault, hrest⟩ := checkParameters_cons h
      refine List.forall_mem_cons.mpr ⟨fun v hv => ?_, ih _ hrest⟩
      obtain ⟨taken, htaken⟩ := Option.isSome_iff_exists.mp (hdefault v hv)
      exact ParameterType.ne_null_of_accept? htaken
  rw [validate] at h
  split at h
  · obtain ⟨_, hparameters, -⟩ := bind_eq_ok_iff.mp h
    exact hchecked [] t.parameters hparameters
  · cases h

/-- The document of a well-formed template is read as the template if the objects among its defaults
ascend. -/
theorem ofJson?_toJson (hvalid : t.validate = .ok ()) (hcanonical : t.Defaults Value.Canonical) :
    ofJson? t.toJson = some t := by
  have hparameters : (array (t.parameters.map Parameter.toJson)).list? Parameter.ofJson? =
      some t.parameters :=
    list?_map fun p hp => Parameter.ofJson?_toJson (hcanonical p hp) (defaults_ne_null hvalid p hp)
  have htags : (array (t.tags.map Json.string)).list? text? = some t.tags :=
    list?_map fun _ _ => rfl
  obtain ⟨name, description, parameters, script, documentation, tags⟩ := t
  unfold ofJson? toJson
  cases documentation with
  | none =>
    have hkeys : ["name", "description", "parameters", "script_template", "tags"].Sublist
        ["name", "description", "parameters", "script_template", "documentation", "tags"] := by
      decide
    refine Option.bind_eq_some_iff.mpr ⟨_, record?_of_sublist (by decide) hkeys, ?_⟩
    simp [hparameters, htags, Record.defaulted?, Table.find?]
  | some text =>
    refine Option.bind_eq_some_iff.mpr ⟨_, record?_of_sublist (by decide) (.refl _), ?_⟩
    simp [hparameters, htags, nullable?]

theorem kept_toJson (h : t.Defaults Value.Finite) : t.toJson.Kept := by
  have hparameters : (array (t.parameters.map Parameter.toJson)).Kept :=
    kept_array (List.forall_mem_map.mpr fun p hp => Parameter.kept_toJson (h p hp))
  have htags : (array (t.tags.map Json.string)).Kept :=
    kept_array (List.forall_mem_map.mpr fun _ _ => kept_string _)
  have hdocumentation : ∀ member ∈ (t.documentation.map fun text =>
      ("documentation", Json.string text)).toList, member.2.Kept := by
    cases t.documentation with
    | none => exact List.forall_mem_nil _
    | some text => exact List.forall_mem_singleton.mpr (kept_string text)
  refine kept_object (List.forall_mem_append.mpr ⟨List.forall_mem_append.mpr ⟨?_, hdocumentation⟩,
    List.forall_mem_singleton.mpr htags⟩)
  simp [kept_string, hparameters]

/-- Defaults are nested three deep in a template. -/
theorem depth_toJson_le {depth : Nat} (hdepth : 2 ≤ depth)
    (h : t.Defaults fun v => v.toJson.depth ≤ depth) : t.toJson.depth ≤ depth + 3 := by
  have hparameters : depthItems (t.parameters.map Parameter.toJson) ≤ depth + 1 :=
    depthItems_le_iff.mpr (List.forall_mem_map.mpr fun p hp =>
      Parameter.depth_toJson_le hdepth (h p hp))
  have htags : depthItems (t.tags.map Json.string) ≤ 0 :=
    depthItems_le_iff.mpr (List.forall_mem_map.mpr fun _ _ => Nat.le_refl _)
  unfold toJson
  cases t.documentation with
  | none =>
    simp only [Option.map_none, Option.toList_none, Json.depth, depthMembers, List.cons_append,
      List.nil_append]
    omega
  | some text =>
    simp only [Option.map_some, Option.toList_some, Json.depth, depthMembers, List.cons_append,
      List.nil_append]
    omega

end Template

/-! ### Templates that were read -/

theorem Record.eq_or_exists_of_defaulted? {α : Type} {r : Record} {name : String} {default a : α}
    {value? : Json → Option α} (h : r.defaulted? name default value? = some a) :
    a = default ∨ ∃ j, value? j = some a := by
  unfold defaulted? at h
  split at h
  · exact .inr ⟨_, h⟩
  · exact .inl (Option.some.inj h).symm

theorem Json.exists_of_mem_list? {α : Type} {item? : Json → Option α} {j : Json} {l : List α}
    (h : j.list? item? = some l) {a : α} (ha : a ∈ l) : ∃ item, item? item = some a := by
  unfold list? at h
  split at h
  · obtain ⟨item, -, hitem⟩ := exists_of_mem_mapM h ha
    exact ⟨item, hitem⟩
  · cases h

theorem Json.of_nullable? {α : Type} {value? : Json → Option α} {j : Json} {a : α}
    (h : j.nullable? value? = some (some a)) : value? j = some a := by
  unfold nullable? at h
  split at h
  · cases h
  · obtain ⟨b, hb, hba⟩ := Option.map_eq_some_iff.mp h
    rwa [← Option.some.inj hba]

theorem Parameter.canonical_of_ofJson? {j : Json} {p : Parameter} (h : ofJson? j = some p) :
    ∀ v ∈ p.default?, v.Canonical := by
  simp only [ofJson?, bind, Option.bind_eq_some_iff] at h
  obtain ⟨r, -, name, -, type, -, description, -, required, -, default?, hdefault, h⟩ := h
  obtain rfl := Option.some.inj h
  rintro v rfl
  rcases Record.eq_or_exists_of_defaulted? hdefault with hnone | ⟨j, hj⟩
  · cases hnone
  · exact Value.canonical_of_ofJson? (of_nullable? hj)

/-- The objects among the defaults of a template that was read ascend. -/
theorem Template.canonical_of_ofJson? {j : Json} {t : Template} (h : ofJson? j = some t) :
    t.Defaults Value.Canonical := by
  simp only [ofJson?, bind, Option.bind_eq_some_iff] at h
  obtain ⟨r, -, name, -, description, -, parameters, hparameters, script, -, documentation, -,
    tags, -, h⟩ := h
  obtain rfl := Option.some.inj h
  intro p hp
  rcases Record.eq_or_exists_of_defaulted? hparameters with rfl | ⟨j, hj⟩
  · cases hp
  · obtain ⟨item, hitem⟩ := exists_of_mem_list? hj hp
    exact Parameter.canonical_of_ofJson? hitem

namespace TemplateRegistry

variable {r r' : TemplateRegistry}

/-- The defaults of all templates have a property. -/
def Defaults (P : Value → Prop) (r : TemplateRegistry) : Prop :=
  ∀ name t, r.get? name = some t → t.Defaults P

namespace Defaults

variable {P : Value → Prop}

theorem empty : TemplateRegistry.empty.Defaults P :=
  fun _ _ h => nomatch h

/-- The defaults have a property if a check of all of them says so. -/
theorem of_all {check : Value → Bool} (hcheck : ∀ v, check v = true → P v)
    (h : (r.entries.all fun entry =>
      entry.2.parameters.all fun p => p.default?.all check) = true) : r.Defaults P := by
  intro name t ht p hp v hv
  have hentry := List.all_eq_true.mp h (name, t) (Table.mem_of_find? ht)
  have hdefault := List.all_eq_true.mp hentry p hp
  rw [Option.mem_def.mp hv] at hdefault
  exact hcheck v hdefault

theorem put (h : r.Defaults P) {t : Template} (ht : t.Defaults P) : (r.put t).Defaults P := by
  intro name u hu
  rw [get?_put] at hu
  split_ifs at hu
  · cases hu
    exact ht
  · exact h name u hu

theorem foldl_put {incoming : List Template} (h : r.Defaults P)
    (hincoming : ∀ t ∈ incoming, t.Defaults P) :
    (incoming.foldl TemplateRegistry.put r).Defaults P := by
  induction incoming generalizing r with
  | nil => exact h
  | cons t incoming ih =>
    obtain ⟨ht, hrest⟩ := List.forall_mem_cons.mp hincoming
    exact ih (h.put ht) hrest

end Defaults

end TemplateRegistry

namespace TemplateCall

variable {r r' : TemplateRegistry} {call : TemplateCall}

/-- The defaults of the template that the call registers have a property. -/
def Defaults (P : Value → Prop) : TemplateCall → Prop
  | register t | registerOrReplace t => t.Defaults P
  | remove _ | load _ => True

/-- The objects among the defaults ascend in whatever a call registers. -/
theorem canonical_apply (hr : r.Consistent) (h : r.Defaults Value.Canonical)
    (hcall : call.Defaults Value.Canonical) (happly : call.apply r = .ok r') :
    r'.Defaults Value.Canonical := by
  cases call with
  | register t =>
    obtain ⟨-, rfl⟩ := TemplateRegistry.register_eq_ok_iff.mp happly
    exact h.put hcall
  | registerOrReplace t =>
    obtain ⟨_, hreplaced, rfl⟩ := map_eq_ok_iff.mp happly
    obtain ⟨_, -, ⟨⟩⟩ := bind_eq_ok_iff.mp hreplaced
    exact h.put hcall
  | remove name =>
    cases happly
    intro other t ht
    have hascending := hr.entries_ascending
    rw [TemplateRegistry.remove, TemplateRegistry.get?, Table.find?_erase hascending] at ht
    split_ifs at ht
    exact h other t ht
  | load text =>
    obtain ⟨incoming, ⟨documents, -, hread⟩, -, rfl⟩ := apply_load_eq_ok_iff.mp happly
    refine h.foldl_put fun t ht => ?_
    have hdocuments := TemplateRegistry.mapM_eq_some_iff.mpr hread
    obtain ⟨document, -, hdocument⟩ := exists_of_mem_mapM hdocuments ht
    exact Template.canonical_of_ofJson? hdocument

theorem canonical_perform (hr : r.Consistent) (h : r.Defaults Value.Canonical)
    (hcall : call.Defaults Value.Canonical) :
    (reached (call.perform r)).Defaults Value.Canonical := by
  rw [perform_eq, settle]
  cases happly : call.apply r with
  | error e => exact h
  | ok r' => exact canonical_apply hr h hcall happly

theorem canonical_run {calls : List TemplateCall} (hr : r.Consistent)
    (h : r.Defaults Value.Canonical) (hcalls : ∀ call ∈ calls, call.Defaults Value.Canonical) :
    (run calls r).Defaults Value.Canonical := by
  induction calls generalizing r with
  | nil => exact h
  | cons call calls ih =>
    obtain ⟨hcall, hrest⟩ := List.forall_mem_cons.mp hcalls
    exact ih (consistent_perform hr call) (canonical_perform hr h hcall) hrest

end TemplateCall

/-! ### Texts of registries -/

namespace TemplateRegistry

variable {r : TemplateRegistry}

namespace Consistent

theorem get?_of_mem (h : r.Consistent) {entry : String × Template} (hentry : entry ∈ r.entries) :
    r.get? entry.1 = some entry.2 :=
  h.entries_ascending.find?_of_mem hentry

theorem name_eq (h : r.Consistent) {entry : String × Template} (hentry : entry ∈ r.entries) :
    entry.2.name = entry.1 :=
  h.named (h.get?_of_mem hentry)

theorem map_name_values (h : r.Consistent) :
    (Table.values r.entries).map Template.name = r.names := by
  rw [Table.values, List.map_map]
  exact List.map_congr_left fun entry hentry => h.name_eq hentry

/-- The empty registry admits all templates of another at once. -/
theorem admits_values (h : r.Consistent) :
    TemplateRegistry.empty.Admits (Table.values r.entries) where
  valid := List.forall_mem_map.mpr fun _ hentry => h.valid (h.get?_of_mem hentry)
  distinct := h.map_name_values ▸ h.ascending.imp fun hlt => String.ne_of_lt hlt
  fresh _ _ := rfl

/-- The templates of a registry, put into an empty one in their order, make the registry again. -/
theorem foldl_put_values (h : r.Consistent) :
    (Table.values r.entries).foldl TemplateRegistry.put .empty = r := by
  have hfold (entries done : Table Template) (hnames : ∀ entry ∈ entries, entry.2.name = entry.1) :
      (Table.values entries).foldl TemplateRegistry.put ⟨done⟩ =
        ⟨entries.foldl (fun table entry => table.insert entry.1 entry.2) done⟩ := by
    induction entries generalizing done with
    | nil => rfl
    | cons entry entries ih =>
      obtain ⟨hname, hrest⟩ := List.forall_mem_cons.mp hnames
      rw [Table.values, List.map_cons, List.foldl_cons, List.foldl_cons, TemplateRegistry.put,
        hname]
      exact ih _ hrest
  refine (hfold r.entries [] fun _ hentry => h.name_eq hentry).trans ?_
  exact congrArg TemplateRegistry.mk (Table.ofList_of_ascending h.entries_ascending)

/-- The text of a consistent registry is loaded as the registry, if JSON keeps its defaults and none
of them nests more than 100 arrays and objects. -/
theorem load_text (h : r.Consistent) (hcanonical : r.Defaults Value.Canonical)
    (hkept : r.Defaults fun v => v.Finite ∧ v.toJson.depth ≤ 100) :
    TemplateRegistry.empty.load r.text = .ok (r, r.names.length) := by
  have hvalues {P : Value → Prop} (hP : r.Defaults P) :
      ∀ t ∈ Table.values r.entries, t.Defaults P :=
    List.forall_mem_map.mpr fun entry hentry => hP entry.1 entry.2 (h.get?_of_mem hentry)
  have hdocument : (array ((Table.values r.entries).map Template.toJson)).Kept :=
    kept_array (List.forall_mem_map.mpr fun t ht =>
      Template.kept_toJson fun p hp v hv => (hvalues hkept t ht p hp v hv).1)
  have hdepth : (array ((Table.values r.entries).map Template.toJson)).depth ≤ maxOpen := by
    refine (Nat.succ_le_succ (depthItems_le_iff.mpr (List.forall_mem_map.mpr fun t ht => ?_))).trans
      (by decide : 103 + 1 ≤ maxOpen)
    exact Template.depth_toJson_le (by decide) fun p hp v hv => (hvalues hkept t ht p hp v hv).2
  have hparse : Json.parse? r.text =
      some (array ((Table.values r.entries).map Template.toJson)) := by
    rw [text, parse?_pretty hdocument.1 hdepth, hdocument.2]
  have hread : (array ((Table.values r.entries).map Template.toJson)).list? Template.ofJson? =
      some (Table.values r.entries) :=
    list?_map fun t ht =>
      Template.ofJson?_toJson (h.admits_values.valid t ht) (hvalues hcanonical t ht)
  refine load_eq_ok_iff.mpr ⟨Table.values r.entries, writes_iff.mp ?_, h.admits_values,
    h.foldl_put_values.symm, ?_⟩
  · rw [hparse, Option.bind_some, hread]
  · rw [← h.map_name_values, List.length_map]

end Consistent

end TemplateRegistry

/-- Whatever calls have made a registry, loading its text into an empty one gives the same templates
under the same names, and their number, if the doubles among the defaults are finite and no default
nests more than 100 arrays and objects. -/
theorem load_text_run {calls : List TemplateCall}
    (hcalls : ∀ call ∈ calls, call.Defaults Value.Canonical)
    (hdefaults : (TemplateCall.run calls .empty).Defaults fun v =>
      v.Finite ∧ v.toJson.depth ≤ 100) :
    TemplateRegistry.empty.load (TemplateCall.run calls .empty).text =
      .ok (TemplateCall.run calls .empty, (TemplateCall.run calls .empty).names.length) :=
  (TemplateCall.consistent_run calls .empty).load_text
    (TemplateCall.canonical_run .empty .empty hcalls) hdefaults

/-- A default with values of several kinds. -/
def sampleDefault : Value :=
  .array [.integer 1, .number ⟨0x4004000000000000⟩, .object [("k", .null)]]

/-- Calls that register a template, load another and remove a third. -/
def sampleCalls : List TemplateCall := [
  .register {
    name := "total"
    parameters := [⟨"xs", .array, "what to add", false, some sampleDefault⟩,
      ⟨"unit", .select ["m", "km"], "", true, none⟩]
    script := "sum(\x7b\x7bxs\x7d\x7d)"
    documentation := some "adds \"all\"" },
  .load ("[\x7b\"script_template\": \"len(\x7b\x7bxs\x7d\x7d)\", \"name\": \"size\"," ++
    "\"parameters\": [\x7b\"default\": [1, 2.5, \x7b\"k\": null\x7d], \"type\": \"array\"," ++
    "\"name\": \"xs\"\x7d]\x7d]"),
  .remove "third"]

theorem load_text_run_sample :
    (TemplateCall.run sampleCalls .empty).names = ["size", "total"] ∧
      TemplateRegistry.empty.load (TemplateCall.run sampleCalls .empty).text =
        .ok (TemplateCall.run sampleCalls .empty, 2) := by
  have hnames : (TemplateCall.run sampleCalls .empty).names = ["size", "total"] := by
    decide +kernel
  have hcheck : ((TemplateCall.run sampleCalls .empty).entries.all fun entry =>
      entry.2.parameters.all fun p => p.default?.all (·.identical sampleDefault)) = true := by
    decide +kernel
  have hcanonical : sampleDefault.Canonical :=
    ⟨trivial, trivial, ⟨List.pairwise_singleton _ _, trivial, trivial⟩, trivial⟩
  have hcalls : ∀ call ∈ sampleCalls, call.Defaults Value.Canonical := by
    simp [sampleCalls, TemplateCall.Defaults, Template.Defaults, hcanonical]
  have hdefaults : (TemplateCall.run sampleCalls .empty).Defaults fun v =>
      v.Finite ∧ v.toJson.depth ≤ 100 := by
    refine TemplateRegistry.Defaults.of_all (fun v hv => ?_) hcheck
    rw [Value.eq_of_identical _ _ hv]
    exact ⟨by simp [sampleDefault, Value.Finite, Value.FiniteItems, Value.FiniteFields]; decide,
      by decide⟩
  refine ⟨hnames, ?_⟩
  rw [load_text_run hcalls hdefaults, hnames]
  rfl

end Covenant
