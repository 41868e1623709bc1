import Covenant.Value.Basic
import Mathlib.Data.List.Basic

/-!
# Values and tables

What other modules use of values and of the tables they are made of: what is found under a key after
a change, that a table in ascending order is built entry by entry, induction on values, and that
identical values are equal.

## Main definitions

* `Value.Finite` : every double inside the value is finite.

## Main results

* `Table.find?_insert`, `Table.find?_erase` : what is found in a table after a change.
* `Table.Ascending.insert`, `Table.Ascending.erase` : changes keep the keys in order.
* `Value.eq_of_identical` : identical values are equal.
-/

namespace Covenant

/-! ### Tables -/

namespace Table

variable {α : Type}

theorem find?_insert (table : Table α) (key other : String) (value : α) :
    Table.find? other (Table.insert key value table) =
      if key = other then some value else Table.find? other table := by
  induction table with
  | nil => rfl
  | cons entry rest ih =>
    obtain ⟨k, v⟩ := entry
    simp only [Table.insert]
    split_ifs with hkey hother hother hother hother <;> grind [Table.find?]

theorem mem_of_find? {table : Table α} {key : String} {value : α}
    (h : Table.find? key table = some value) : (key, value) ∈ table := by
  induction table with
  | nil => cases h
  | cons entry table ih =>
    obtain ⟨k, v⟩ := entry
    unfold find? at h
    split_ifs at h with hkey
    · obtain rfl := Option.some.inj h
      exact hkey ▸ List.mem_cons_self
    · exact List.mem_cons_of_mem _ (ih h)

theorem mem_of_mem_insert {table : Table α} {key : String} {value : α} {entry : String × α}
    (h : entry ∈ table.insert key value) : entry = (key, value) ∨ entry ∈ table := by
  induction table with
  | nil => exact .inl (List.mem_singleton.mp h)
  | cons head table ih =>
    unfold insert at h
    split_ifs at h <;> grind

theorem mem_of_mem_erase {table : Table α} {key : String} {entry : String × α}
    (h : entry ∈ table.erase key) : entry ∈ table := by
  induction table with
  | nil => exact h
  | cons head table ih =>
    unfold erase at h
    split_ifs at h <;> grind

/-- A value under a key above all others comes last. -/
theorem insert_of_above {table : Table α} {key : String} (value : α)
    (h : ∀ entry ∈ table, entry.1 < key) : table.insert key value = table ++ [(key, value)] := by
  induction table with
  | nil => rfl
  | cons entry table ih =>
    obtain ⟨k, v⟩ := entry
    have hk : k < key := h (k, v) List.mem_cons_self
    have hrest := ih fun other hother => h other (List.mem_cons_of_mem _ hother)
    have hne : key ≠ k := by
      rintro rfl
      exact String.lt_irrefl key hk
    rw [insert, if_neg hne, if_neg (String.lt_asymm hk), hrest]
    rfl

/-- An entry of a table whose keys ascend is what is found under its key. -/
theorem Ascending.find?_of_mem {table : Table α} (h : table.Ascending) {key : String} {value : α}
    (hentry : (key, value) ∈ table) : find? key table = some value := by
  induction table with
  | nil => cases hentry
  | cons entry table ih =>
    obtain ⟨k, v⟩ := entry
    obtain ⟨hk, htable⟩ := List.pairwise_cons.mp h
    rw [find?]
    rcases List.mem_cons.mp hentry with heq | hentry
    · cases heq
      exact if_pos rfl
    · have hlt : k < key := hk _ hentry
      rw [if_neg (String.ne_of_lt hlt), ih htable hentry]

/-- A key is listed if something is found under it. -/
theorem mem_keys_iff {table : Table α} {key : String} :
    key ∈ table.keys ↔ ∃ value, find? key table = some value := by
  induction table with
  | nil => simp [keys, find?]
  | cons entry table ih =>
    obtain ⟨k, v⟩ := entry
    rw [keys, List.map_cons, List.mem_cons, find?]
    split_ifs with hkey
    · simp [hkey]
    · rw [← ih, or_iff_right (Ne.symm hkey), keys]

theorem contains_eq_false_iff {table : Table α} {key : String} :
    contains key table = false ↔ find? key table = none := by
  rw [contains, Option.isSome_eq_false_iff, Option.isNone_iff_eq_none]

theorem find?_erase {table : Table α} (h : table.Ascending) (key other : String) :
    find? other (table.erase key) = if key = other then none else find? other table := by
  induction table with
  | nil => simp [erase, find?]
  | cons entry table ih =>
    obtain ⟨k, v⟩ := entry
    obtain ⟨hk, htable⟩ := List.pairwise_cons.mp h
    rw [erase]
    split_ifs with hkey hother hother
    · subst hkey hother
      refine Option.eq_none_iff_forall_not_mem.mpr fun value hvalue => ?_
      exact String.lt_irrefl key (hk _ (mem_of_find? hvalue))
    · rw [find?, if_neg (hkey ▸ hother)]
    · rw [find?, if_neg (hother ▸ Ne.symm hkey), ih htable, if_pos hother]
    · rw [find?, find?, ih htable, if_neg hother]

theorem Ascending.insert {table : Table α} (h : table.Ascending) (key : String) (value : α) :
    (table.insert key value).Ascending := by
  induction table with
  | nil => exact List.pairwise_singleton _ _
  | cons entry table ih =>
    obtain ⟨k, v⟩ := entry
    obtain ⟨hk, htable⟩ := List.pairwise_cons.mp h
    rw [Table.insert]
    split_ifs with heq hlt
    · exact List.pairwise_cons.mpr ⟨fun entry hentry => heq ▸ hk entry hentry, htable⟩
    · refine List.pairwise_cons.mpr ⟨fun entry hentry => ?_, h⟩
      obtain rfl | hentry := List.mem_cons.mp hentry
      · exact hlt
      · exact String.lt_trans hlt (hk entry hentry)
    · refine List.pairwise_cons.mpr ⟨fun entry hentry => ?_, ih htable⟩
      obtain rfl | hentry := mem_of_mem_insert hentry
      · exact Std.lt_of_le_of_ne (String.not_lt.mp hlt) (Ne.symm heq)
      · exact hk entry hentry

theorem Ascending.erase {table : Table α} (h : table.Ascending) (key : String) :
    (table.erase key).Ascending := by
  induction table with
  | nil => exact h
  | cons entry table ih =>
    obtain ⟨k, v⟩ := entry
    obtain ⟨hk, htable⟩ := List.pairwise_cons.mp h
    rw [Table.erase]
    split_ifs
    · exact htable
    · exact List.pairwise_cons.mpr ⟨fun entry hentry => hk entry (mem_of_mem_erase hentry),
        ih htable⟩

/-- A value under a key that was not there is one entry more. -/
theorem length_insert {table : Table α} {key : String} (h : find? key table = none) (value : α) :
    (table.insert key value).length = table.length + 1 := by
  induction table with
  | nil => rfl
  | cons entry table ih =>
    obtain ⟨k, v⟩ := entry
    rw [find?] at h
    split_ifs at h with hkey
    rw [Table.insert, if_neg (Ne.symm hkey)]
    split_ifs
    · rfl
    · rw [List.length_cons, List.length_cons, ih h]

end Table

/-! ### Values -/

namespace Value

/-- Induction on values. Items and fields give a hypothesis for each member. -/
@[induction_eliminator]
theorem ind {motive : Value → Prop}
    (string : ∀ text, motive (string text))
    (number : ∀ x, motive (number x))
    (integer : ∀ n, motive (integer n))
    (boolean : ∀ flag, motive (boolean flag))
    (object : ∀ fields, (∀ field ∈ fields, motive field.2) → motive (object fields))
    (array : ∀ items, (∀ item ∈ items, motive item) → motive (array items))
    (null : motive null) (v : Value) : motive v :=
  @Value.rec motive (fun fields => ∀ field ∈ fields, motive field.2)
    (fun items => ∀ item ∈ items, motive item) (fun field => motive field.2)
    string number integer boolean object array null
    (fun _ h => nomatch h)
    (fun _ _ ihHead ihTail _ h => by
      rcases List.mem_cons.mp h with rfl | h
      · exact ihHead
      · exact ihTail _ h)
    (fun _ h => nomatch h)
    (fun _ _ ihHead ihTail _ h => by
      rcases List.mem_cons.mp h with rfl | h
      · exact ihHead
      · exact ihTail _ h)
    (fun _ _ ih => ih) v

/-! ### Identity -/

mutual

/-- Identical values are equal. -/
theorem eq_of_identical : ∀ a b : Value, a.identical b = true → a = b
  | .string a, .string b, h => by simpa [identical] using h
  | .number a, .number b, h => by simpa [identical] using h
  | .integer a, .integer b, h => by simpa [identical] using h
  | .boolean a, .boolean b, h => by simpa [identical] using h
  | .object a, .object b, h => by
    rw [eq_of_identicalFields a b (by simpa [identical] using h)]
  | .array a, .array b, h => by
    rw [eq_of_identicalItems a b (by simpa [identical] using h)]
  | .null, .null, _ => rfl

theorem eq_of_identicalItems : ∀ as bs : List Value, identicalItems as bs = true → as = bs
  | [], [], _ => rfl
  | a :: as, b :: bs, h => by
    simp only [identicalItems, Bool.and_eq_true] at h
    rw [eq_of_identical a b h.1, eq_of_identicalItems as bs h.2]

theorem eq_of_identicalFields :
    ∀ as bs : List (String × Value), identicalFields as bs = true → as = bs
  | [], [], _ => rfl
  | (k, a) :: as, (l, b) :: bs, h => by
    simp only [identicalFields, Bool.and_eq_true, beq_iff_eq] at h
    rw [h.1.1, eq_of_identical a b h.1.2, eq_of_identicalFields as bs h.2]

end

/-! ### Finite and canonical values -/

mutual

/-- Every double inside the value is finite. -/
def Finite : Value → Prop
  | .number x => x.isFinite = true
  | .object fields => FiniteFields fields
  | .array items => FiniteItems items
  | _ => True

/-- Every double inside the items is finite. -/
def FiniteItems : List Value → Prop
  | [] => True
  | item :: rest => item.Finite ∧ FiniteItems rest

/-- Every double inside the field values is finite. -/
def FiniteFields : List (String × Value) → Prop
  | [] => True
  | (_, value) :: rest => value.Finite ∧ FiniteFields rest

end

theorem finiteItems_iff {items : List Value} : FiniteItems items ↔ ∀ item ∈ items, item.Finite := by
  induction items with
  | nil => simp [FiniteItems]
  | cons item items ih => simp [FiniteItems, ih]

theorem finiteFields_iff {fields : List (String × Value)} :
    FiniteFields fields ↔ ∀ field ∈ fields, field.2.Finite := by
  induction fields with
  | nil => simp [FiniteFields]
  | cons field fields ih => simp [FiniteFields, ih]

theorem canonicalItems_iff {items : List Value} :
    CanonicalItems items ↔ ∀ item ∈ items, item.Canonical := by
  induction items with
  | nil => simp [CanonicalItems]
  | cons item items ih => simp [CanonicalItems, ih]

theorem canonicalFields_iff {fields : List (String × Value)} :
    CanonicalFields fields ↔ ∀ field ∈ fields, field.2.Canonical := by
  induction fields with
  | nil => simp [CanonicalFields]
  | cons field fields ih => simp [CanonicalFields, ih]

end Value

end Covenant
