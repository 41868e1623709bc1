import Covenant.Operator.Apply
import Mathlib.Algebra.Ring.Int.Defs
import Mathlib.Data.Int.Order.Basic
import Mathlib.Order.Compare

/-!
# Operators on integers

What comparisons and arithmetic make of two integers. Comparisons are those of the integers, and
arithmetic has the exact result where that fits in 64 bits.

## Main definitions

* `Number.Fits` : an integer fits in 64 bits.

## Main results

* `BinaryOp.lessEqual_integer`, `BinaryOp.greaterEqual_integer`, `BinaryOp.greater_integer`.
* `BinaryOp.apply_integer` : sums, differences and products.
-/

namespace Covenant

namespace Number

/-- The integer fits in 64 bits. -/
def Fits (k : Int) : Prop :=
  -2 ^ 63 ≤ k ∧ k < 2 ^ 63

instance (k : Int) : Decidable (Fits k) :=
  inferInstanceAs (Decidable (_ ∧ _))

theorem integer?_toInt (n : Int64) : integer? n.toInt = some n := by
  rw [integer?, if_pos ⟨n.minValue_le_toInt, n.toInt_le⟩, Int64.ofInt_toInt]

theorem toInt_of_integer? {k : Int} {n : Int64} (h : integer? k = some n) : n.toInt = k := by
  rw [integer?] at h
  split_ifs at h with hfits
  rw [← Option.some.inj h]
  exact Int64.toInt_ofInt_of_le hfits.1 (Int.lt_add_one_of_le hfits.2)

/-- What fits is the value of an integer. -/
theorem Fits.exists_integer? {k : Int} (h : Fits k) :
    ∃ n : Int64, n.toInt = k ∧ integer? k = some n := by
  have hvalue : (Int64.ofInt k).toInt = k := Int64.toInt_ofInt_of_le h.1 h.2
  exact ⟨Int64.ofInt k, hvalue, (congrArg integer? hvalue).symm.trans (integer?_toInt _)⟩

end Number

namespace BinaryOp

variable {x y z : Int64}

theorem lessEqual_integer (x y : Int64) :
    lessEqual.apply (.integer x) (.integer y) = .ok (.boolean (decide (x ≤ y))) := by
  have hflag : (Ord.compare x.toInt y.toInt != .gt) = decide (x ≤ y) := by
    rw [Bool.eq_iff_iff, bne_iff_ne, ne_eq, compare_gt_iff_gt, decide_eq_true_iff,
      Int64.le_iff_toInt_le, not_lt]
  exact congrArg (fun flag => Except.ok (Value.boolean flag)) hflag

theorem greaterEqual_integer (x y : Int64) :
    greaterEqual.apply (.integer x) (.integer y) = .ok (.boolean (decide (y ≤ x))) := by
  have hflag : (Ord.compare x.toInt y.toInt != .lt) = decide (y ≤ x) := by
    rw [Bool.eq_iff_iff, bne_iff_ne, ne_eq, compare_lt_iff_lt, decide_eq_true_iff,
      Int64.le_iff_toInt_le, not_lt]
  exact congrArg (fun flag => Except.ok (Value.boolean flag)) hflag

theorem greater_integer (x y : Int64) :
    greater.apply (.integer x) (.integer y) = .ok (.boolean (decide (y < x))) := by
  have hflag : (Ord.compare x.toInt y.toInt == .gt) = decide (y < x) := by
    rw [Bool.eq_iff_iff, beq_iff_eq, compare_gt_iff_gt, decide_eq_true_iff,
      Int64.lt_iff_toInt_lt]
  exact congrArg (fun flag => Except.ok (Value.boolean flag)) hflag

/-- Sums, differences and products that fit are exact. -/
theorem apply_integer {op : BinaryOp} (hop : op ∈ [add, subtract, multiply])
    (h : Number.integer? (op.wide x.toInt y.toInt) = some z) :
    op.apply (.integer x) (.integer y) = .ok (.integer z) := by
  have hdivide : op ≠ divide := by
    rintro rfl
    exact absurd hop (by decide)
  have hmodulo : op ≠ modulo := by
    rintro rfl
    exact absurd hop (by decide)
  have hintegers : op.integers x y = .ok z := by
    simp [integers, hdivide, hmodulo, h]
  have harithmetic : op.arithmetic (.integer x) (.integer y) = .ok (.integer z) :=
    congrArg (Except.map Value.integer) hintegers
  simp only [List.mem_cons, List.not_mem_nil, or_false] at hop
  rcases hop with rfl | rfl | rfl <;> exact harithmetic

end BinaryOp

end Covenant
