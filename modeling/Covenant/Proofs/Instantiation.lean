import Covenant.Proofs.Segments

/-!
# What instantiation reports first

Instantiation checks a template's parameters in a fixed order. The first declared parameter that
must be given and is not is reported whatever else is wrong, then the least key that is not
declared, then
the first declared parameter whose given value its type does not take. Only what passes all of this
is filled into the text, with the values that the parameters then have, and the text is read.

What is first is said of lists, what is least of the bytes in which texts are written, and the value
of a parameter without the checks.

## Main definitions

* `IsFirst` : the first member of a list for which something holds.
* `utf8` : the bytes of a text.
* `Parameter.Missing`, `Template.Undeclared`, `Parameter.Mismatched` : what is reported.
* `Parameter.value`, `Template.values` : the values that parameters have once nothing is reported.

## Main results

* `utf8_lt` : the order of texts is that of their bytes.
* `Template.resolveAll_eq_error`, `Template.resolveAll_eq_ok` : how the values are found.
* `Template.instantiate_ordered` : what instantiation reports, and when it reads the text.
-/

namespace Covenant

/-! ### First members and least keys -/

/-- The first member of a list for which something holds. -/
def IsFirst {α : Type} (holds : α → Prop) (l : List α) (a : α) : Prop :=
  holds a ∧ ∃ before after, l = before ++ a :: after ∧ ∀ b ∈ before, ¬holds b

theorem IsFirst.mem {α : Type} {holds : α → Prop} {l : List α} {a : α} (h : IsFirst holds l a) :
    a ∈ l := by
  obtain ⟨-, before, after, rfl, -⟩ := h
  exact List.mem_append_right _ List.mem_cons_self

theorem exists_isFirst {α : Type} {holds : α → Prop} {l : List α} (h : ∃ a ∈ l, holds a) :
    ∃ a, IsFirst holds l a := by
  induction l with
  | nil => simp at h
  | cons b l ih =>
    by_cases hb : holds b
    · exact ⟨b, hb, [], l, rfl, List.forall_mem_nil _⟩
    · obtain ⟨a, ha, before, after, rfl, hbefore⟩ := ih (by simpa [hb] using h)
      exact ⟨a, ha, b :: before, after, rfl, List.forall_mem_cons.mpr ⟨hb, hbefore⟩⟩

theorem IsFirst.find?_eq {α : Type} {holds : α → Prop} {l : List α} {a : α}
    (h : IsFirst holds l a) {p : α → Bool} (hp : ∀ a, p a = true ↔ holds a) :
    l.find? p = some a := by
  obtain ⟨ha, before, after, rfl, hbefore⟩ := h
  rw [List.find?_eq_some_iff_append]
  refine ⟨(hp a).mpr ha, before, after, rfl, fun b hb => ?_⟩
  rw [Bool.not_eq_true', Bool.eq_false_iff]
  exact mt (hp b).mp (hbefore b hb)

/-- The bytes of a text. -/
def utf8 (text : String) : List UInt8 :=
  text.toList.flatMap String.utf8EncodeChar

theorem utf8EncodeChar_append_lt {c d : Char} (h : c < d) (bytes bytes' : List UInt8) :
    String.utf8EncodeChar c ++ bytes < String.utf8EncodeChar d ++ bytes' := by
  have hlt : c.val.toNat < d.val.toNat := h
  have hd : d.val.toNat < 1114112 := by
    rcases d.valid with h | h
    · exact Nat.lt_trans h (by decide)
    · exact h.2
  -- A first byte of four and a later byte, with the carries that `omega` does not see by itself.
  have hfirst (v : Nat) (hv : v < 1114112) :
      (v / 262144 % 8 + 240) % 256 = v / 64 / 64 / 64 + 240 ∧ v / 4096 = v / 64 / 64 := by omega
  have hlater (v : Nat) : (v % 64 + 128) % 256 = v % 64 + 128 := by omega
  unfold String.utf8EncodeChar
  generalize c.val.toNat = m at hlt
  generalize d.val.toNat = n at hlt hd
  have hm := hfirst m (Nat.lt_trans hlt hd)
  have hn := hfirst n hd
  dsimp only
  split_ifs <;>
    simp only [List.cons_append, List.nil_append, List.cons_lt_cons_iff, ← UInt8.toNat_inj,
      UInt8.lt_iff_toNat_lt, UInt8.toNat_ofNat', hlater, hm, hn] <;>
    omega

/-- The order of texts is that of their bytes. -/
theorem utf8_lt {a b : String} (h : a < b) : utf8 a < utf8 b := by
  rw [String.lt_iff] at h
  unfold utf8
  generalize a.toList = cs at h
  generalize b.toList = ds at h
  induction h with
  | @nil d ds =>
    rw [List.flatMap_cons, List.flatMap_nil]
    rcases hd : String.utf8EncodeChar d with _ | ⟨byte, bytes⟩
    · exact absurd hd (by unfold String.utf8EncodeChar; dsimp only; split_ifs <;> simp)
    · exact List.nil_lt_cons ..
  | rel h =>
    rw [List.flatMap_cons, List.flatMap_cons]
    exact utf8EncodeChar_append_lt h ..
  | cons _ ih =>
    rw [List.flatMap_cons, List.flatMap_cons]
    exact List.append_left_lt ih

instance {α : Type} (table : Table α) : Decidable table.Ascending :=
  inferInstanceAs (Decidable (List.Pairwise _ _))

/-- The first key of an ascending table for which something holds is the least in bytes. -/
theorem Table.Ascending.least {α : Type} {table : Table α} (h : table.Ascending)
    {holds : String → Prop} {key other : String} (hfirst : IsFirst holds table.keys key)
    (hother : other ∈ table.keys) (hholds : holds other) : other = key ∨ utf8 key < utf8 other := by
  obtain ⟨-, before, after, hkeys, hbefore⟩ := hfirst
  have hpairwise : (before ++ key :: after).Pairwise (· < ·) := by
    rw [← hkeys, Table.keys, List.pairwise_map]
    exact h
  obtain ⟨-, hpairwise, -⟩ := List.pairwise_append.mp hpairwise
  rw [hkeys, List.mem_append, List.mem_cons] at hother
  rcases hother with hother | rfl | hother
  · exact absurd hholds (hbefore _ hother)
  · exact .inl rfl
  · exact .inr (utf8_lt ((List.pairwise_cons.mp hpairwise).1 _ hother))

/-! ### Values of parameters -/

/-- An integer becomes a double where a number is asked for; nothing else changes. -/
def ParameterType.widen : ParameterType → Value → Value
  | .number, .integer n => .number (Double.ofInteger n.toInt)
  | _, value => value

theorem ParameterType.widen_null (type : ParameterType) : type.widen .null = .null := by
  cases type <;> rfl

/-- A type takes a value as it is, or widened. -/
theorem ParameterType.eq_widen_of_accept? {type : ParameterType} {value taken : Value}
    (h : type.accept? value = some taken) : taken = type.widen value := by
  unfold accept? at h
  split at h
  case h_7 => exact (Option.some.inj h).symm
  all_goals first
    | exact (Option.some.inj h).symm
    | (split_ifs at h; exact (Option.some.inj h).symm)
    | cases h

namespace Parameter

/-- The parameter must be given and is not. -/
def Missing (given : Table Value) (p : Parameter) : Prop :=
  p.required = true ∧ p.name ∉ Table.keys given

instance (given : Table Value) (p : Parameter) : Decidable (p.Missing given) :=
  inferInstanceAs (Decidable (_ ∧ _))

/-- The value is given for the parameter, and its type does not take it; null is no value where the
parameter need not be given. -/
structure Mismatched (given : Table Value) (p : Parameter) (v : Value) : Prop where
  given : Table.find? p.name given = some v
  refused : p.type.accept? v = none
  needed : v = .null → p.required = true

instance (given : Table Value) (p : Parameter) : Decidable (∃ v, p.Mismatched given v) :=
  decidable_of_iff (((Table.find? p.name given).any fun v =>
      (p.type.accept? v).isNone && (!v.isNull || p.required)) = true) <| by
    simp only [Option.any_eq_true, Bool.and_eq_true, Option.isNone_iff_eq_none, Bool.or_eq_true,
      Bool.not_eq_true']
    refine exists_congr fun v => ⟨fun ⟨hgiven, hrefused, hneeded⟩ => ⟨hgiven, hrefused, ?_⟩,
      fun h => ⟨h.given, h.refused, ?_⟩⟩
    · rintro rfl
      simpa [Value.isNull] using hneeded
    · cases v <;> simp [Value.isNull, h.needed]

/-- The value of a parameter: the given one, or else the default, either of them widened, or else
null. -/
def value (given : Table Value) (p : Parameter) : Value :=
  match Table.find? p.name given with
  | some v => p.type.widen v
  | none =>
    match p.default? with
    | some v => p.type.widen v
    | none => .null

end Parameter

namespace Template

variable {t : Template} {given done : Table Value}

/-- The key is not the name of a parameter. -/
def Undeclared (t : Template) (key : String) : Prop :=
  ∀ p ∈ t.parameters, p.name ≠ key

instance (t : Template) (key : String) : Decidable (t.Undeclared key) :=
  inferInstanceAs (Decidable (∀ p ∈ t.parameters, p.name ≠ key))

/-- The values of all parameters. -/
def values (t : Template) (given : Table Value) : Table Value :=
  Table.ofList (t.parameters.map fun p => (p.name, p.value given))

/-- Every default has a value of its type. -/
theorem isSome_accept?_default (h : t.validate = .ok ()) {p : Parameter} (hp : p ∈ t.parameters)
    {v : Value} (hv : p.default? = some v) : (p.type.accept? v).isSome := by
  have hchecked (declared : List String) (ps : List Parameter)
      (h : t.checkParameters declared ps = .ok ()) :
      ∀ p ∈ ps, ∀ v ∈ p.default?, (p.type.accept? v).isSome := by
    induction ps generalizing declared with
    | nil => exact List.forall_mem_nil _
    | cons p ps ih =>
      obtain ⟨hdefault, hrest⟩ := checkParameters_cons h
      exact List.forall_mem_cons.mpr ⟨hdefault, ih _ hrest⟩
  rw [validate] at h
  split at h
  · obtain ⟨_, hparameters, -⟩ := bind_eq_ok_iff.mp h
    exact hchecked [] t.parameters hparameters p hp v hv
  · cases h

theorem resolve_eq_error {p : Parameter} {v : Value} (h : p.Mismatched given v) :
    resolve p (Table.find? p.name given) =
      .error (.typeMismatch p.name p.type.describe (p.type.found v)) := by
  have hkept : (v.isNull && !p.required) = false := by
    cases v <;> simp_all [Value.isNull, h.needed]
  simp [resolve, h.given, hkept, ParameterType.accept, h.refused]

theorem resolve_eq_ok {p : Parameter} (hdefault : ∀ v, p.default? = some v →
    (p.type.accept? v).isSome) (h : ¬∃ v, p.Mismatched given v) :
    resolve p (Table.find? p.name given) = .ok (p.value given) := by
  unfold resolve Parameter.value
  rcases hgiven : Table.find? p.name given with _ | v
  · rcases hnone : p.default? with _ | v
    · rfl
    · obtain ⟨taken, htaken⟩ := Option.isSome_iff_exists.mp (hdefault v hnone)
      simp [htaken, ParameterType.eq_widen_of_accept? htaken]
  · dsimp only
    split_ifs with hnull
    · obtain rfl : v = .null := by cases v <;> simp_all [Value.isNull]
      rw [ParameterType.widen_null]
    · rcases htaken : p.type.accept? v with _ | taken
      · refine absurd ⟨v, hgiven, htaken, ?_⟩ h
        rintro rfl
        simpa [Value.isNull] using hnull
      · simp [ParameterType.accept, htaken, ParameterType.eq_widen_of_accept? htaken]

/-- The first parameter with a value that its type does not take ends the search for values. -/
theorem resolveAll_eq_error {ps : List Parameter}
    (hdefault : ∀ p ∈ ps, ∀ v, p.default? = some v → (p.type.accept? v).isSome) {p : Parameter}
    {v : Value} (hfirst : IsFirst (fun q => ∃ w, q.Mismatched given w) ps p)
    (hv : p.Mismatched given v) :
    resolveAll given done ps = .error (.typeMismatch p.name p.type.describe (p.type.found v)) := by
  obtain ⟨-, before, after, rfl, hbefore⟩ := hfirst
  induction before generalizing done with
  | nil =>
    rw [List.nil_append, resolveAll, resolve_eq_error hv]
    rfl
  | cons q before ih =>
    obtain ⟨hq, hbefore⟩ := List.forall_mem_cons.mp hbefore
    obtain ⟨hqdefault, hdefault⟩ := List.forall_mem_cons.mp hdefault
    rw [List.cons_append, resolveAll, resolve_eq_ok hqdefault hq]
    exact ih hbefore hdefault

theorem resolveAll_eq_ok {ps : List Parameter}
    (hdefault : ∀ p ∈ ps, ∀ v, p.default? = some v → (p.type.accept? v).isSome)
    (h : ∀ p ∈ ps, ¬∃ v, p.Mismatched given v) :
    resolveAll given done ps =
      .ok (ps.foldl (fun table p => Table.insert p.name (p.value given) table) done) := by
  induction ps generalizing done with
  | nil => rfl
  | cons p ps ih =>
    obtain ⟨hp, hps⟩ := List.forall_mem_cons.mp h
    obtain ⟨hpdefault, hdefault⟩ := List.forall_mem_cons.mp hdefault
    rw [resolveAll, resolve_eq_ok hpdefault hp]
    exact ih hdefault hps

theorem values_eq_foldl (t : Template) (given : Table Value) : t.values given =
    t.parameters.foldl (fun table p => Table.insert p.name (p.value given) table) [] :=
  List.foldl_map

/-! ### Checks in order -/

theorem missing_iff {p : Parameter} :
    (p.required && !Table.contains p.name given) = true ↔ p.Missing given := by
  rw [Bool.and_eq_true, Bool.not_eq_true', Table.contains_eq_false_iff, Parameter.Missing,
    Table.mem_keys_iff, ← Option.isSome_iff_exists, Option.not_isSome_iff_eq_none]

theorem undeclared_iff {key : String} :
    (!t.parameters.any fun p => p.name = key) = true ↔ t.Undeclared key := by
  simp [Undeclared]

theorem instantiate_of_missing {p : Parameter}
    (h : IsFirst (Parameter.Missing given) t.parameters p) :
    t.instantiate given = .error (.missingParameter t.name p.name) := by
  rw [instantiate, h.find?_eq fun _ => missing_iff]
  rfl

/-- With every required parameter given, the keys are looked at next. -/
theorem instantiate_of_undeclared (hmissing : ∀ p ∈ t.parameters, ¬p.Missing given) {key : String}
    (h : IsFirst t.Undeclared given.keys key) :
    t.instantiate given = .error (.unknownParameter t.name key) := by
  have hgiven : (t.parameters.find? fun p => p.required && !Table.contains p.name given) = none :=
    List.find?_eq_none.mpr fun p hp => mt missing_iff.mp (hmissing p hp)
  rw [instantiate, hgiven, h.find?_eq fun _ => undeclared_iff]
  rfl

/-- With every required parameter given and every key declared, the values are looked at next. -/
theorem instantiate_of_declared (hmissing : ∀ p ∈ t.parameters, ¬p.Missing given)
    (hundeclared : ∀ key ∈ given.keys, ¬t.Undeclared key) :
    t.instantiate given = resolveAll given [] t.parameters >>= fun resolved =>
      ((parse t.name (t.source resolved)).mapError Error.parse).map fun script =>
        { script with
          metadata := Table.insert "parameters" (Value.object resolved).toJson.compact
            (Table.insert "template" t.name script.metadata) } := by
  have hgiven : (t.parameters.find? fun p => p.required && !Table.contains p.name given) = none :=
    List.find?_eq_none.mpr fun p hp => mt missing_iff.mp (hmissing p hp)
  have hdeclared : (given.keys.find? fun key => !t.parameters.any fun p => p.name = key) = none :=
    List.find?_eq_none.mpr fun key hkey => mt undeclared_iff.mp (hundeclared key hkey)
  rw [instantiate, hgiven, hdeclared]
  simp only [bind, Except.bind, pure, Except.pure]
  cases resolveAll given [] t.parameters with
  | error e => rfl
  | ok resolved =>
    dsimp only
    cases parse t.name (t.source resolved) <;> rfl

theorem instantiate_eq_ok (hmissing : ∀ p ∈ t.parameters, ¬p.Missing given)
    (hundeclared : ∀ key ∈ given.keys, ¬t.Undeclared key) {resolved : Table Value}
    (hresolved : resolveAll given [] t.parameters = .ok resolved) {script : Script}
    (hscript : parse t.name (t.source resolved) = .ok script) :
    t.instantiate given = .ok { script with
      metadata := Table.insert "parameters" (Value.object resolved).toJson.compact
        (Table.insert "template" t.name script.metadata) } := by
  rw [instantiate_of_declared hmissing hundeclared, hresolved]
  simp only [bind, Except.bind, hscript, Except.mapError, Except.map]

/-- What is instantiated has every required parameter given and every key declared. -/
theorem declared_of_instantiate {script : Script} (h : t.instantiate given = .ok script) :
    (∀ p ∈ t.parameters, ¬p.Missing given) ∧ ∀ key ∈ given.keys, ¬t.Undeclared key := by
  have hmissing (p : Parameter) (hp : p ∈ t.parameters) : ¬p.Missing given := by
    intro hmissing
    obtain ⟨q, hq⟩ := exists_isFirst ⟨p, hp, hmissing⟩
    exact nomatch h.symm.trans (instantiate_of_missing hq)
  refine ⟨hmissing, fun key hkey hundeclared => ?_⟩
  obtain ⟨least, hleast⟩ := exists_isFirst ⟨key, hkey, hundeclared⟩
  exact nomatch h.symm.trans (instantiate_of_undeclared hmissing hleast)

/-- Instantiation decides in a fixed order. A parameter that must be given and is not is reported
before all else, the first in the order of declaration; then a key that is not declared, the least
in bytes; then a given value that the type of its parameter does not take, again the first in the
order of declaration. What passes is read from the text with the values of all parameters, and no
script comes from anything else. -/
theorem instantiate_ordered (t : Template) (given : Table Value) (hvalid : t.validate = .ok ())
    (hgiven : given.Ascending) :
    ((∃ p ∈ t.parameters, p.Missing given) →
      ∃ p, IsFirst (Parameter.Missing given) t.parameters p ∧
        t.instantiate given = .error (.missingParameter t.name p.name)) ∧
    ((∀ p ∈ t.parameters, ¬p.Missing given) → (∃ key ∈ given.keys, t.Undeclared key) →
      ∃ key ∈ given.keys, t.Undeclared key ∧
        (∀ other ∈ given.keys, t.Undeclared other → other = key ∨ utf8 key < utf8 other) ∧
        t.instantiate given = .error (.unknownParameter t.name key)) ∧
    ((∀ p ∈ t.parameters, ¬p.Missing given) → (∀ key ∈ given.keys, ¬t.Undeclared key) →
      (∃ p ∈ t.parameters, ∃ v, p.Mismatched given v) →
      ∃ p v, IsFirst (fun q => ∃ w, q.Mismatched given w) t.parameters p ∧
        p.Mismatched given v ∧ t.instantiate given =
          .error (.typeMismatch p.name p.type.describe (p.type.found v))) ∧
    ((∀ p ∈ t.parameters, ¬p.Missing given) → (∀ key ∈ given.keys, ¬t.Undeclared key) →
      (∀ p ∈ t.parameters, ¬∃ v, p.Mismatched given v) →
      (∀ p ∈ t.parameters, Table.find? p.name (t.values given) = some (p.value given)) ∧
      t.instantiate given =
        ((parse t.name (substitute t.script fun name =>
          (Table.find? name (t.values given)).map Value.renderChars)).mapError Error.parse).map
            fun script => { script with
              metadata := Table.insert "parameters" (Value.object (t.values given)).toJson.compact
                (Table.insert "template" t.name script.metadata) }) ∧
    ∀ script, t.instantiate given = .ok script → (∀ p ∈ t.parameters, ¬p.Missing given) ∧
      (∀ key ∈ given.keys, ¬t.Undeclared key) ∧ ∀ p ∈ t.parameters, ¬∃ v, p.Mismatched given v := by
  have hdefault (p : Parameter) (hp : p ∈ t.parameters) (v : Value) (hv : p.default? = some v) :
      (p.type.accept? v).isSome :=
    isSome_accept?_default hvalid hp hv
  refine ⟨fun hmissing => ?_, fun hmissing hundeclared => ?_,
    fun hmissing hundeclared hmismatched => ?_, fun hmissing hundeclared hmismatched => ?_,
    fun script hscript => ?_⟩
  · obtain ⟨p, hp⟩ := exists_isFirst hmissing
    exact ⟨p, hp, instantiate_of_missing hp⟩
  · obtain ⟨key, hkey⟩ := exists_isFirst hundeclared
    exact ⟨key, hkey.mem, hkey.1, fun other => hgiven.least hkey,
      instantiate_of_undeclared hmissing hkey⟩
  · obtain ⟨p, hp⟩ := exists_isFirst hmismatched
    obtain ⟨v, hv⟩ := hp.1
    refine ⟨p, v, hp, hv, ?_⟩
    rw [instantiate_of_declared hmissing hundeclared, resolveAll_eq_error hdefault hp hv]
    rfl
  · have hresolved : resolveAll given [] t.parameters = .ok (t.values given) := by
      rw [resolveAll_eq_ok hdefault hmismatched, values_eq_foldl]
    refine ⟨fun p hp => ?_, ?_⟩
    · obtain ⟨v, hv, hfind⟩ := find?_resolveAll hresolved (nodup_of_validate hvalid) hp
      rw [resolve_eq_ok (hdefault p hp) (hmismatched p hp)] at hv
      rw [hfind, Except.ok.inj hv]
    · simp only [instantiate_of_declared hmissing hundeclared, hresolved, bind, Except.bind,
        source]
  · obtain ⟨hmissing, hundeclared⟩ := declared_of_instantiate hscript
    refine ⟨hmissing, hundeclared, fun p hp hmismatched => ?_⟩
    have hsome : ∃ q ∈ t.parameters, ∃ v, q.Mismatched given v := ⟨p, hp, hmismatched⟩
    obtain ⟨q, hq⟩ := exists_isFirst hsome
    obtain ⟨v, hv⟩ := hq.1
    rw [instantiate_of_declared hmissing hundeclared, resolveAll_eq_error hdefault hq hv] at hscript
    cases hscript

/-- A template with a parameter that must be given although it has a default, and two that need not
be given. -/
def invoice : Template where
  name := "invoice"
  parameters := [
    { name := "rate", type := .number, default? := some (.integer 3) },
    { name := "note", type := .string, required := true, default? := some (.string "paid") },
    { name := "limit", type := .integer, default? := some (.integer 5) }]
  script := "\x7b rate: \x7b\x7brate\x7d\x7d, note: \x7b\x7b note \x7d\x7d, limit: \x7b\x7blimit\x7d\x7d \x7d"

/-- Parameters with each of the faults at once. -/
def invoiceFaulty : Table Value :=
  [("Limit", .null), ("limit", .string "5"), ("überall", .null)]

/-- Parameters without a fault, with null in place of a default. -/
def invoiceGiven : Table Value :=
  [("limit", .null), ("note", .string "due")]

theorem instantiate_ordered_invoice :
    (∃ p, IsFirst (Parameter.Missing invoiceFaulty) invoice.parameters p ∧
      invoice.instantiate invoiceFaulty = .error (.missingParameter "invoice" p.name)) ∧
    (∀ p ∈ invoice.parameters, Table.find? p.name (invoice.values invoiceGiven) =
      some (p.value invoiceGiven)) ∧
    invoice.instantiate invoiceGiven =
      ((parse "invoice" (substitute invoice.script fun name =>
        (Table.find? name (invoice.values invoiceGiven)).map Value.renderChars)).mapError
          Error.parse).map fun script => { script with
            metadata := Table.insert "parameters"
              (Value.object (invoice.values invoiceGiven)).toJson.compact
              (Table.insert "template" "invoice" script.metadata) } := by
  have hvalid : invoice.validate.toOption.any (fun _ => true) = true := by decide +kernel
  obtain ⟨⟨⟩, hvalid, -⟩ := exists_ok_of_check hvalid
  have hfaulty : Table.Ascending invoiceFaulty := by decide +kernel
  have hgiven : Table.Ascending invoiceGiven := by decide +kernel
  obtain ⟨hmissing, -⟩ := instantiate_ordered invoice invoiceFaulty hvalid hfaulty
  obtain ⟨-, -, -, hread, -⟩ := instantiate_ordered invoice invoiceGiven hvalid hgiven
  refine ⟨hmissing ⟨_, List.mem_cons_of_mem _ List.mem_cons_self, rfl, by decide +kernel⟩,
    hread (by decide +kernel) (by decide +kernel) (by decide +kernel)⟩

end Template

end Covenant
