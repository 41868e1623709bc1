import Covenant.Program.Compile
import Covenant.Program.Fingerprint
import Covenant.Proofs.Computation
import Covenant.Proofs.Documents
import Covenant.Script.Parser

/-!
# The canonical text of a program

The canonical text of a program is read as the program again, constant for constant and bit for bit,
unless a constant holds a double that is not finite or is nested too deep for the reader.

Programs count as equal if their constants are equal in the language, where an integer equals the
double it converts to and the two zeros are one number. Their texts keep these apart. Of two equal
programs the texts are therefore the same only if the constants are identical.

## Main results

* `Program.bytes_inj` : programs with the same bytes have the same canonical text.
* `Program.parse?_of_bytes` : the bytes of a program are read as the program.
* `Program.bytes_eq_iff` : equal programs have the same bytes exactly if their constants are
  identical.
* `Program.exists_equal_bytes_ne` : equal programs whose bytes differ.
-/

namespace Covenant

/-! ### Bytes -/

theorem toList_loop_eq (bytes : ByteArray) (i : Nat) (read : List UInt8) :
    ByteArray.toList.loop bytes i read = read.reverse ++ bytes.data.toList.drop i := by
  induction i, read using ByteArray.toList.loop.induct bytes with
  | case1 i read hlt ih =>
    have hi : i < bytes.data.toList.length := by simpa using hlt
    have hget : bytes.get! i = bytes.data.toList[i] := getElem!_pos bytes.data i hlt
    rw [ByteArray.toList.loop, if_pos hlt, ih, List.drop_eq_getElem_cons hi, hget]
    simp
  | case2 i read hge =>
    have hi : bytes.data.toList.length ≤ i := by simpa using hge
    rw [ByteArray.toList.loop, if_neg hge, List.drop_eq_nil_of_le hi, List.append_nil]

/-- A text is determined by its bytes. -/
theorem toUTF8_toList_inj {text text' : String} :
    text.toUTF8.toList = text'.toUTF8.toList ↔ text = text' := by
  refine ⟨fun h => ?_, fun h => h ▸ rfl⟩
  simp only [ByteArray.toList, toList_loop_eq, List.drop_zero, List.reverse_nil, List.nil_append,
    Array.toList_inj] at h
  exact String.toByteArray_inj.mp (congrArg ByteArray.mk h)

namespace Program

theorem bytes_inj {p q : Program} : p.bytes = q.bytes ↔ p.text = q.text :=
  toUTF8_toList_inj

/-! ### Reading -/

/-- The canonical text of a program is read as the program, if it is not nested too deep. -/
theorem parse?_text {p : Program} (hdeclared : p.declared.Ascending)
    (hcanonical : ∀ v ∈ p.constants, v.Canonical) (hfinite : ∀ v ∈ p.constants, v.Finite)
    (hdepth : p.toJson.depth ≤ Json.maxOpen) : parse? p.text = some p := by
  rw [parse?, text, Json.parse?_compact p.fits_toJson hdepth, written_toJson hfinite,
    Option.bind_some, ofJson?_toJson hdeclared hcanonical]

/-- A text with the bytes of a program is read as the program, if its constants hold only finite
doubles and nest at most 100 arrays and objects. -/
theorem parse?_of_bytes {p : Program} (hdeclared : p.declared.Ascending)
    (hcanonical : ∀ v ∈ p.constants, v.Canonical) (hfinite : ∀ v ∈ p.constants, v.Finite)
    (hdepth : ∀ v ∈ p.constants, v.toJson.depth ≤ 100) {text : String}
    (htext : text.toUTF8.toList = p.bytes) : parse? text = some p := by
  obtain rfl : text = p.text := toUTF8_toList_inj.mp htext
  have hle : p.toJson.depth ≤ 102 := depth_toJson_le (by decide) hdepth
  exact parse?_text hdeclared hcanonical hfinite (hle.trans (by decide))

/-- A program whose text has escapes, numbers of both kinds, a negative zero, nested constants and
instructions of several forms. -/
def sample : Program where
  name := "a \"b\"\n"
  level := 1
  declared := .ofList ["net.read", "net"]
  code := #[.constant 0, .constant 1, .binary .add, .shortCircuit .or 7, .call 3 2, .tick]
  constants := #[.integer (-1), .number ⟨0x3fb999999999999a⟩, .number (.zero true),
    .string "net.get", .object [("k", .array [.null, .boolean true]), ("l", .object [])]]
  sourceMap := [⟨0, ⟨"script", 1, 1, 2, 5⟩⟩]

theorem parse?_sample : parse? sample.text = some sample := by
  refine parse?_of_bytes (Permissions.ascending_ofList _) ?_ ?_ ?_ rfl
  · simp only [sample, Value.Canonical, Value.CanonicalFields, Value.CanonicalItems,
      Table.Ascending, List.mem_toArray, List.forall_mem_cons, and_true, true_and]
    exact ⟨by decide, List.forall_mem_nil _⟩
  · simp [sample, Value.Finite, Value.FiniteFields, Value.FiniteItems]
    decide
  · simp only [sample]
    decide

/-! ### Equality -/

end Program

/-- Doubles that are the same number and no finite one are the same double. -/
theorem Double.eq_of_equal {x y : Double} (h : x.equal y = true) (hx : x.isFinite = false)
    (hy : y.isFinite = false) : x = y := by
  unfold Double.equal Double.order? at h
  split_ifs at h with hundefined
  · cases h
  simp only [Bool.or_eq_true, not_or, Bool.not_eq_true] at hundefined
  have hinfinite {z : Double} (hz : z.isFinite = false) (hu : z.isUndefined = false) :
      z.magnitudeBits = Double.infinityBits := by
    simp only [Double.isFinite, Double.isUndefined, decide_eq_false_iff_not] at hz hu
    omega
  have hx' := hinfinite hx hundefined.1
  have hy' := hinfinite hy hundefined.2
  have hpos : 0 < Double.infinityBits := by decide
  have hrank : x.rank = y.rank := by simpa using h
  have hsign : x.negative = y.negative := by
    unfold Double.rank at hrank
    cases hnx : x.negative <;> cases hny : y.negative <;> simp [hnx, hny, hx', hy'] at hrank ⊢ <;>
      omega
  rw [← Double.ofParts_self x, ← Double.ofParts_self y, hsign, hx', hy']

namespace Value

theorem written_toJson_array (items : List Value) : (array items).toJson.written =
    .array (items.map fun item => item.toJson.written) := by
  rw [toJson, Json.written, itemsToJson_eq, Json.writtenItems_eq, List.map_map]
  rfl

theorem written_toJson_object (fields : List (String × Value)) : (object fields).toJson.written =
    .object (fields.map fun field => (field.1, field.2.toJson.written)) := by
  rw [toJson, Json.written, fieldsToJson_eq, Json.writtenMembers_eq, List.map_map]
  rfl

/-- A text keeps apart what is equal to the value without being identical to it. -/
def TellsApart (a : Value) : Prop :=
  ∀ ⦃b : Value⦄, a.equal b = true → a.toJson.written = b.toJson.written → a.identical b = true

theorem identicalItems_of_equalItems {as bs : List Value} (has : ∀ a ∈ as, a.TellsApart)
    (h : equalItems as bs = true)
    (hwritten : (as.map fun v => v.toJson.written) = bs.map fun v => v.toJson.written) :
    identicalItems as bs = true := by
  induction as generalizing bs with
  | nil =>
    rcases bs with _ | ⟨b, bs⟩
    · rfl
    · cases h
  | cons a as ih =>
    rcases bs with _ | ⟨b, bs⟩
    · cases h
    obtain ⟨hequal, hrest⟩ := (Bool.and_eq_true _ _).mp h
    obtain ⟨hhead, htail⟩ := List.cons.inj hwritten
    exact (Bool.and_eq_true _ _).mpr ⟨has a List.mem_cons_self hequal hhead,
      ih (fun v hv => has v (List.mem_cons_of_mem _ hv)) hrest htail⟩

theorem identicalFields_of_equalFields {as bs : List (String × Value)}
    (has : ∀ a ∈ as, a.2.TellsApart) (h : equalFields as bs = true)
    (hwritten : (as.map fun field => (field.1, field.2.toJson.written)) =
      bs.map fun field => (field.1, field.2.toJson.written)) :
    identicalFields as bs = true := by
  induction as generalizing bs with
  | nil =>
    rcases bs with _ | ⟨b, bs⟩
    · rfl
    · cases h
  | cons a as ih =>
    rcases bs with _ | ⟨b, bs⟩
    · cases h
    obtain ⟨hequal, hrest⟩ := (Bool.and_eq_true _ _).mp h
    obtain ⟨hkey, hequal⟩ := (Bool.and_eq_true _ _).mp hequal
    obtain ⟨hhead, htail⟩ := List.cons.inj hwritten
    refine (Bool.and_eq_true _ _).mpr ⟨(Bool.and_eq_true _ _).mpr ⟨hkey, ?_⟩,
      ih (fun v hv => has v (List.mem_cons_of_mem _ hv)) hrest htail⟩
    exact has a List.mem_cons_self hequal (congrArg Prod.snd hhead)

theorem tellsApart (a : Value) : a.TellsApart := by
  induction a with
  | string _ | boolean _ | null =>
    intro b h _
    cases b <;> exact h
  | integer n =>
    intro b h hwritten
    cases b with
    | number x =>
      simp only [toJson, Json.written] at hwritten
      split_ifs at hwritten
    | _ => exact h
  | number x =>
    intro b h hwritten
    cases b with
    | number y =>
      simp only [toJson, Json.written] at hwritten
      cases hx : x.isFinite <;> cases hy : y.isFinite <;> simp only [hx, hy] at hwritten
      · exact beq_iff_eq.mpr (Double.eq_of_equal h hx hy)
      · cases hwritten
      · cases hwritten
      · exact beq_iff_eq.mpr (Json.number.inj hwritten)
    | integer n =>
      simp only [toJson, Json.written] at hwritten
      split_ifs at hwritten
    | _ => exact h
  | array items ih =>
    intro b h hwritten
    cases b with
    | array items' =>
      rw [written_toJson_array, written_toJson_array] at hwritten
      exact identicalItems_of_equalItems ih h (Json.array.inj hwritten)
    | _ => exact h
  | object fields ih =>
    intro b h hwritten
    cases b with
    | object fields' =>
      rw [written_toJson_object, written_toJson_object] at hwritten
      exact identicalFields_of_equalFields ih h (Json.object.inj hwritten)
    | _ => exact h

end Value

namespace Program

/-- Programs with the same bytes have constants of which texts keep the same. -/
theorem written_constants_eq {p q : Program} (h : p.bytes = q.bytes) :
    (p.constants.toList.map fun v => v.toJson.written) =
      q.constants.toList.map fun v => v.toJson.written := by
  have hwritten := Json.written_eq_of_compact_eq p.fits_toJson q.fits_toJson (bytes_inj.mp h)
  rw [written_toJson_eq, written_toJson_eq] at hwritten
  simp only [Json.object.injEq, List.cons.injEq, Prod.mk.injEq, Json.array.injEq] at hwritten
  exact hwritten.2.2.2.2.1.2

/-- Equal programs with identical constants are the same. -/
theorem eq_of_equal {p q : Program} (h : p.equal q = true)
    (hconstants : Value.identicalItems p.constants.toList q.constants.toList = true) : p = q := by
  obtain ⟨name, level, declared, code, constants, sourceMap⟩ := p
  obtain ⟨name', level', declared', code', constants', sourceMap'⟩ := q
  simp only [equal, Bool.and_eq_true, decide_eq_true_eq] at h
  obtain ⟨⟨⟨⟨⟨rfl, rfl⟩, rfl⟩, rfl⟩, -⟩, rfl⟩ := h
  obtain rfl := Array.toList_inj.mp (Value.eq_of_identicalItems _ _ hconstants)
  rfl

/-- Equal programs with the same bytes have identical constants. -/
theorem identical_of_bytes_eq {p q : Program} (h : p.equal q = true) (hbytes : p.bytes = q.bytes) :
    Value.identicalItems p.constants.toList q.constants.toList = true := by
  have hequal : Value.equalItems p.constants.toList q.constants.toList = true := by
    simp only [equal, Bool.and_eq_true] at h
    exact h.1.2
  exact Value.identicalItems_of_equalItems (fun a _ => a.tellsApart) hequal
    (written_constants_eq hbytes)

/-- Equal programs have the same bytes, and then the same fingerprint, exactly if their constants
are identical: of the same kinds, and doubles bit for bit. -/
theorem bytes_eq_iff {p q : Program} (h : p.equal q = true) :
    (p.bytes = q.bytes ↔
      Value.identicalItems p.constants.toList q.constants.toList = true) ∧
    (p.bytes = q.bytes → p.fingerprint = q.fingerprint) := by
  refine ⟨⟨identical_of_bytes_eq h, fun hconstants => ?_⟩, congrArg Blake3.hex⟩
  rw [eq_of_equal h hconstants]

/-- The two zeros are equal, and written differently. -/
theorem zeros_bytes_ne :
    { sample with constants := #[.number (.zero false)] }.bytes ≠
      { sample with constants := #[.number (.zero true)] }.bytes := by
  have hequal : ({ sample with constants := #[.number (.zero false)] } : Program).equal
      { sample with constants := #[.number (.zero true)] } = true := by
    decide
  have hdiffer : Value.identicalItems [.number (.zero false)] [.number (.zero true)] = false := by
    decide
  intro hbytes
  have hidentical := (bytes_eq_iff hequal).1.mp hbytes
  rw [hdiffer] at hidentical
  cases hidentical

/-- The programs of these two scripts are equal, and their bytes are not. -/
theorem exists_equal_bytes_ne :
    ∃ script script' p q,
      parse "script" "100" = .ok script ∧ parse "script" "1e2" = .ok script' ∧
      compile 0 (.empty : Registry Empty) script .none = .ok p ∧
      compile 0 (.empty : Registry Empty) script' .none = .ok q ∧
      p.equal q = true ∧ p.bytes ≠ q.bytes := by
  have hcheck : (parse "script" "100").toOption.any (fun script =>
      (parse "script" "1e2").toOption.any fun script' =>
        (compile 0 (.empty : Registry Empty) script .none).toOption.any fun p =>
          (compile 0 (.empty : Registry Empty) script' .none).toOption.any fun q =>
            p.equal q && !Value.identicalItems p.constants.toList q.constants.toList) = true := by
    decide +kernel
  obtain ⟨script, hscript, hcheck⟩ := exists_ok_of_check hcheck
  obtain ⟨script', hscript', hcheck⟩ := exists_ok_of_check hcheck
  obtain ⟨p, hp, hcheck⟩ := exists_ok_of_check hcheck
  obtain ⟨q, hq, hcheck⟩ := exists_ok_of_check hcheck
  obtain ⟨hequal, hdiffer⟩ := (Bool.and_eq_true _ _).mp hcheck
  refine ⟨script, script', p, q, hscript, hscript', hp, hq, hequal, fun hbytes => ?_⟩
  rw [identical_of_bytes_eq hequal hbytes] at hdiffer
  cases hdiffer

end Program

end Covenant
