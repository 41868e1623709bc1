import Covenant.Operator.Apply
import Covenant.Proofs.Rounding
import Covenant.Proofs.Values

/-!
# Laws of equality

Equality of values is structural, except that an integer equals the double it converts to. A value
equals itself exactly if no undefined number stands anywhere in it, and equality is symmetric. Two
equalities with one value in common give a third, except where the common value holds a double that
two different integers convert to.

## Main definitions

* `Value.Occurs` : one value stands at some place inside another.
* `Value.Defined` : no undefined number stands anywhere in the value.
* `Value.Confuses` : at some place the middle one of three values holds a double, and the outer ones
  hold different integers.

## Main results

* `Value.equal_self_iff`, `Value.equal_comm` : what equals itself, and symmetry.
* `Value.equal_trans`, `Value.Confuses.not_equal` : where two equalities give a third.
* `Value.equal_trans_of_small` : where all integers are below `2 ^ 53` they always do.
* `Value.equal_laws` : the laws of an equivalence, as far as they hold.
-/

namespace Covenant

/-! ### Doubles -/

namespace Double

variable {x y z : Double}

/-- Doubles are equal if they are defined and at the same place. -/
theorem equal_iff : x.equal y = true ↔
    x.isUndefined = false ∧ y.isUndefined = false ∧ x.rank = y.rank := by
  rw [equal, order?]
  cases x.isUndefined <;> cases y.isUndefined <;> simp

theorem equal_comm (x y : Double) : x.equal y = y.equal x := by
  rw [Bool.eq_iff_iff, equal_iff, equal_iff]
  grind

theorem equal_trans (h : x.equal y = true) (h' : y.equal z = true) : x.equal z = true := by
  rw [equal_iff] at *
  exact ⟨h.1, h'.2.1, h.2.2.trans h'.2.2⟩

/-- Integers whose doubles equal one double have the same double. -/
theorem ofInteger_eq_of_equal {m n : Int} (h : (ofInteger m).equal x = true)
    (h' : (ofInteger n).equal x = true) : ofInteger m = ofInteger n := by
  rw [equal_iff] at h h'
  exact ofInteger_eq_of_rank_eq (h.2.2.trans h'.2.2.symm)

end Double

namespace Value

variable {a b c u v : Value} {as bs cs items : List Value} {fs gs hs fields : Table Value}

/-! ### Places inside a value -/

/-- One value stands at some place inside another. -/
inductive Occurs (u : Value) : Value → Prop
  | self : Occurs u u
  | item {items : List Value} {item : Value} (hmem : item ∈ items) (h : Occurs u item) :
    Occurs u (.array items)
  | field {fields : Table Value} {field : String × Value} (hmem : field ∈ fields)
    (h : Occurs u field.2) : Occurs u (.object fields)

/-- No undefined number stands anywhere in the value. -/
def Defined (v : Value) : Prop :=
  ∀ x, Occurs (.number x) v → x.isUndefined = false

theorem defined_number {x : Double} : (Value.number x).Defined ↔ x.isUndefined = false :=
  ⟨fun h => h x .self, fun h _ hx => by cases hx; exact h⟩

theorem defined_array : (Value.array items).Defined ↔ ∀ item ∈ items, item.Defined :=
  ⟨fun h _ hmem x hx => h x (.item hmem hx), fun h x hx => by
    cases hx with
    | item hmem hx => exact h _ hmem x hx⟩

theorem defined_object : (Value.object fields).Defined ↔ ∀ field ∈ fields, field.2.Defined :=
  ⟨fun h _ hmem x hx => h x (.field hmem hx), fun h x hx => by
    cases hx with
    | field hmem hx => exact h _ hmem x hx⟩

/-- Finite numbers are defined. -/
theorem Finite.defined (h : v.Finite) : v.Defined := by
  induction v with
  | string | integer | boolean | null => exact fun x hx => nomatch hx
  | number x => exact defined_number.mpr (Double.isUndefined_of_isFinite h)
  | array items ih =>
    exact defined_array.mpr fun item hmem => ih item hmem (finiteItems_iff.mp h item hmem)
  | object fields ih =>
    exact defined_object.mpr fun field hmem => ih field hmem (finiteFields_iff.mp h field hmem)

/-- The integers in the values of an object are those in the object. -/
theorem Occurs.of_values {n : Int64} (h : Occurs (.integer n) (.array fields.values)) :
    Occurs (.integer n) (.object fields) := by
  cases h with
  | item hmem h =>
    obtain ⟨field, hfield, rfl⟩ := List.mem_map.mp hmem
    exact .field hfield h

/-! ### Equality item by item -/

theorem equalItems_iff {as bs : List Value} : equalItems as bs = true ↔ as.length = bs.length ∧
    ∀ i (ha : i < as.length) (hb : i < bs.length), as[i].equal bs[i] = true := by
  induction as generalizing bs with
  | nil => cases bs <;> simp [equalItems]
  | cons a as ih =>
    cases bs with
    | nil => simp [equalItems]
    | cons b bs =>
      rw [equalItems, Bool.and_eq_true, ih]
      constructor
      · rintro ⟨hhead, hlength, htail⟩
        refine ⟨congrArg (· + 1) hlength, fun i ha hb => ?_⟩
        cases i with
        | zero => exact hhead
        | succ i => exact htail i (Nat.lt_of_succ_lt_succ ha) (Nat.lt_of_succ_lt_succ hb)
      · rintro ⟨hlength, hitems⟩
        exact ⟨hitems 0 (Nat.succ_pos _) (Nat.succ_pos _), Nat.succ.inj hlength,
          fun i ha hb => hitems (i + 1) (Nat.succ_lt_succ ha) (Nat.succ_lt_succ hb)⟩

theorem equalFields_iff : equalFields fs gs = true ↔
    fs.keys = gs.keys ∧ equalItems fs.values gs.values = true := by
  induction fs generalizing gs with
  | nil => cases gs <;> simp [equalFields, equalItems, Table.keys, Table.values]
  | cons f fs ih =>
    cases gs with
    | nil => simp [equalFields, Table.keys]
    | cons g gs =>
      rw [equalFields, Bool.and_eq_true, Bool.and_eq_true, beq_iff_eq, ih]
      simp only [Table.keys, Table.values, List.map_cons, equalItems, List.cons.injEq,
        Bool.and_eq_true]
      grind

theorem equal_array : (Value.array as).equal (.array bs) = equalItems as bs := by
  rw [equal]

theorem equal_object : (Value.object fs).equal (.object gs) = true ↔
    fs.keys = gs.keys ∧ equalItems fs.values gs.values = true := by
  rw [equal, equalFields_iff]

/-! ### Reflexivity and symmetry -/

theorem equalItems_self_iff : equalItems items items = true ↔
    ∀ item ∈ items, item.equal item = true := by
  rw [equalItems_iff, List.forall_mem_iff_forall_getElem]
  exact ⟨fun h i hi => h.2 i hi hi, fun h => ⟨rfl, fun i hi _ => h i hi⟩⟩

/-- What equals itself. -/
theorem equal_self_iff : v.equal v = true ↔ v.Defined := by
  induction v with
  | string | integer | boolean | null =>
    exact iff_of_true (by simp [equal]) fun x hx => nomatch hx
  | number x => rw [equal, Double.equal_iff, defined_number]; tauto
  | array items ih =>
    rw [equal_array, equalItems_self_iff, defined_array]
    exact forall₂_congr ih
  | object fields ih =>
    rw [equal_object, equalItems_self_iff, defined_object, Table.values, List.forall_mem_map]
    exact (and_iff_right rfl).trans (forall₂_congr ih)

/-- Values of finite doubles are equal to themselves. -/
theorem equal_self (h : v.Finite) : v.equal v = true :=
  equal_self_iff.mpr h.defined

theorem equalItems_comm (h : ∀ a ∈ as, ∀ b, a.equal b = b.equal a) (bs : List Value) :
    equalItems as bs = equalItems bs as := by
  induction as generalizing bs with
  | nil => cases bs <;> rfl
  | cons a as ih =>
    obtain ⟨ha, has⟩ := List.forall_mem_cons.mp h
    cases bs with
    | nil => rfl
    | cons b bs => rw [equalItems, equalItems, ha b, ih has bs]

/-- Equality is symmetric. -/
theorem equal_comm (a b : Value) : a.equal b = b.equal a := by
  induction a generalizing b with
  | string | boolean | null => cases b <;> simp [equal, Bool.beq_comm]
  | number x =>
    cases b with
    | number y => rw [equal, equal, Double.equal_comm]
    | _ => simp [equal]
  | integer n =>
    cases b with
    | integer m => simp [equal, eq_comm]
    | _ => simp [equal]
  | array items ih =>
    cases b with
    | array bs => rw [equal_array, equal_array, equalItems_comm ih]
    | _ => simp [equal]
  | object fields ih =>
    cases b with
    | object gs =>
      have hvalues : equalItems (Table.values fields) (Table.values gs) = _ :=
        equalItems_comm (List.forall_mem_map.mpr ih) _
      rw [Bool.eq_iff_iff, equal_object, equal_object, hvalues]
      exact and_congr_left' eq_comm
    | _ => simp [equal]

/-! ### Transitivity -/

/-- At some place the middle value holds a double, and the outer ones hold different integers. -/
inductive Confuses : Value → Value → Value → Prop
  | here {m n : Int64} {x : Double} (hne : m ≠ n) :
    Confuses (.integer m) (.number x) (.integer n)
  | item {as bs cs : List Value} (i : Nat) (ha : i < as.length) (hb : i < bs.length)
    (hc : i < cs.length) (h : Confuses as[i] bs[i] cs[i]) :
    Confuses (.array as) (.array bs) (.array cs)
  | field {fs gs hs : Table Value} (h : Confuses (.array fs.values) (.array gs.values)
    (.array hs.values)) : Confuses (.object fs) (.object gs) (.object hs)

theorem equalItems_trans (h : equalItems as bs = true) (h' : equalItems bs cs = true)
    (hnot : ¬Confuses (.array as) (.array bs) (.array cs))
    (ih : ∀ a ∈ as, ∀ b c, a.equal b = true → b.equal c = true → ¬Confuses a b c →
      a.equal c = true) : equalItems as cs = true := by
  rw [equalItems_iff] at *
  obtain ⟨hlength, hitems⟩ := h
  obtain ⟨hlength', hitems'⟩ := h'
  refine ⟨hlength.trans hlength', fun i ha hc => ?_⟩
  have hb : i < bs.length := by omega
  exact ih as[i] (List.getElem_mem ha) bs[i] cs[i] (hitems i ha hb) (hitems' i hb hc)
    fun h => hnot (.item i ha hb hc h)

theorem equal_trans (h : a.equal b = true) (h' : b.equal c = true) (hnot : ¬Confuses a b c) :
    a.equal c = true := by
  induction a generalizing b c with
  | string | boolean | null => cases b <;> cases c <;> simp_all [equal]
  | number x =>
    cases b <;> cases c <;> simp_all only [equal, beq_iff_eq, Bool.false_eq_true]
    · exact Double.equal_trans h h'
    · exact (Double.equal_comm _ _).trans (Double.equal_trans h ((Double.equal_comm _ _).trans h'))
    · exact Double.equal_trans ((Double.equal_comm _ _).trans h) h'
  | integer n =>
    cases b with
    | integer m =>
      obtain rfl : n = m := by simpa [equal] using h
      exact h'
    | number x =>
      cases c with
      | integer m =>
        -- the double in the middle may be that of both
        obtain rfl : n = m := by_contra fun hne => hnot (.here hne)
        simp [equal]
      | number y =>
        rw [equal] at *
        exact Double.equal_trans h h'
      | _ => simp [equal] at h'
    | _ => simp [equal] at h
  | array items ih =>
    cases b with
    | array bs =>
      cases c with
      | array cs => exact equalItems_trans h h' hnot fun a ha _ _ => ih a ha
      | _ => simp [equal] at h'
    | _ => simp [equal] at h
  | object fields ih =>
    cases b with
    | object gs =>
      cases c with
      | object hs =>
        rw [equal_object] at *
        exact ⟨h.1.trans h'.1, equalItems_trans h.2 h'.2 (fun hvalues => hnot (.field hvalues))
          (List.forall_mem_map.mpr fun field hmem _ _ => ih field hmem)⟩
      | _ => simp [equal] at h'
    | _ => simp [equal] at h

theorem Confuses.not_equal (h : Confuses a b c) : ¬a.equal c = true := by
  induction h with
  | here hne => simpa [equal] using hne
  | item i ha hb hc _ ih =>
    rw [equal_array, equalItems_iff]
    exact fun hequal => ih (hequal.2 i ha hc)
  | field _ ih =>
    rw [equal_object]
    exact fun hequal => ih (equal_array.trans hequal.2)

/-- The double in the middle is that of two different integers. -/
theorem Confuses.exists_integers (h : Confuses a b c) (hab : a.equal b = true)
    (hbc : b.equal c = true) : ∃ m n : Int64, Occurs (.integer m) a ∧ Occurs (.integer n) c ∧
      m ≠ n ∧ Double.ofInteger m.toInt = Double.ofInteger n.toInt := by
  induction h with
  | @here m n x hne =>
    simp only [equal] at hab hbc
    exact ⟨m, n, .self, .self, hne, Double.ofInteger_eq_of_equal hab hbc⟩
  | item i ha hb hc _ ih =>
    rw [equal_array, equalItems_iff] at hab hbc
    obtain ⟨m, n, hm, hn, hne, heq⟩ := ih (hab.2 i ha hb) (hbc.2 i hb hc)
    exact ⟨m, n, .item (List.getElem_mem ha) hm, .item (List.getElem_mem hc) hn, hne, heq⟩
  | field _ ih =>
    rw [equal_object] at hab hbc
    obtain ⟨m, n, hm, hn, hne, heq⟩ :=
      ih (equal_array.trans hab.2) (equal_array.trans hbc.2)
    exact ⟨m, n, hm.of_values, hn.of_values, hne, heq⟩

/-- Integers below `2 ^ 53` are not confused. -/
theorem equal_trans_of_small (ha : ∀ m : Int64, Occurs (.integer m) a → m.toInt.natAbs < 2 ^ 53)
    (hc : ∀ n : Int64, Occurs (.integer n) c → n.toInt.natAbs < 2 ^ 53)
    (h : a.equal b = true) (h' : b.equal c = true) : a.equal c = true := by
  refine equal_trans h h' fun hconfuses => ?_
  obtain ⟨m, n, hm, hn, hne, heq⟩ := hconfuses.exists_integers h h'
  exact hne (Int64.toInt_inj.mp (Double.ofInteger_inj (ha m hm) (hc n hn) heq))

/-- The laws of an equivalence: a value of defined numbers equals itself, equality is symmetric,
and two equalities give a third exactly if the middle value does not confuse the outer ones. -/
theorem equal_laws (ha : a.Defined) (hb : b.Defined) (hc : c.Defined) :
    (a.equal a = true ∧ b.equal b = true ∧ c.equal c = true) ∧
      (a.equal b = true → b.equal a = true) ∧
        (a.equal b = true → b.equal c = true → (a.equal c = true ↔ ¬Confuses a b c)) :=
  ⟨⟨equal_self_iff.mpr ha, equal_self_iff.mpr hb, equal_self_iff.mpr hc⟩,
    (equal_comm b a).trans, fun hab hbc => ⟨fun hac h => h.not_equal hac, equal_trans hab hbc⟩⟩

/-- An object of a list of seats, as an integer in the outer values and as its double in the middle
one. -/
theorem equal_laws_nested :
    (Value.object [("seats", .array [.integer 9007199254740992])]).Defined ∧
      (Value.object
        [("seats", .array [.number (Double.ofInteger 9007199254740992)])]).Defined ∧
      (Value.object [("seats", .array [.number (Double.ofInteger 9007199254740992)])]).equal
        (.object [("seats", .array [.integer 9007199254740992])]) = true ∧
      ¬Confuses (.object [("seats", .array [.integer 9007199254740992])])
        (.object [("seats", .array [.number (Double.ofInteger 9007199254740992)])])
        (.object [("seats", .array [.integer 9007199254740992])]) := by
  have ha : (Value.object [("seats", .array [.integer 9007199254740992])]).Defined :=
    equal_self_iff.mp (by decide +kernel)
  have hb : (Value.object
      [("seats", .array [.number (Double.ofInteger 9007199254740992)])]).Defined :=
    equal_self_iff.mp (by decide +kernel)
  have hab : (Value.object [("seats", .array [.integer 9007199254740992])]).equal
      (.object [("seats", .array [.number (Double.ofInteger 9007199254740992)])]) = true := by
    decide +kernel
  obtain ⟨⟨haa, -, -⟩, hsymm, htrans⟩ := equal_laws ha hb ha
  exact ⟨ha, hb, hsymm hab, (htrans hab (hsymm hab)).mp haa⟩

/-- A double equals both of two neighbours that convert to it, and they differ. -/
theorem exists_equal_not_trans :
    (Value.integer 9007199254740993).Defined ∧
      (Value.number (Double.ofInteger 9007199254740992)).Defined ∧
      (Value.integer 9007199254740992).Defined ∧
      (Value.integer 9007199254740993).equal (.number (Double.ofInteger 9007199254740992)) = true ∧
      (Value.number (Double.ofInteger 9007199254740992)).equal (.integer 9007199254740992) = true ∧
      (Value.integer 9007199254740993).equal (.integer 9007199254740992) = false := by
  refine ⟨equal_self_iff.mp ?_, equal_self_iff.mp ?_, equal_self_iff.mp ?_, ?_, ?_, ?_⟩ <;>
    decide +kernel

end Value

end Covenant
