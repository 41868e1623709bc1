import Covenant.Number.Numeral
import Covenant.Proofs.Rounding

/-!
# Written doubles read back

The double of a decimal is the one nearest to the number that the decimal stands for, whatever its
digits and its exponent are; the shortcuts for very large and very small exponents make no
difference. The decimal that a finite double is written with stands for a number whose nearest
double it is, and the text it is laid out as writes that number.

## Main definitions

* `Decimal.value` : the number that a decimal stands for.
* `Numeral` : the parts of a written number, with its characters and the decimal they write.

## Main results

* `Decimal.toDouble_eq` : the double of a decimal is the one nearest to its number.
* `shortest_toDouble` : the decimal that is written reads back.
* `Layout.writeMagnitude_numeral` : a written magnitude is a numeral of the number.
-/

namespace Covenant.Number

/-! ### The double of a decimal -/

namespace Decimal

/-- The number that a decimal stands for. -/
def value (d : Decimal) : ℚ :=
  d.coefficient * 10 ^ d.exponent

theorem value_nonneg (d : Decimal) : 0 ≤ d.value := by
  unfold value
  positivity

/-- A negligible decimal is below half the least double. -/
theorem value_of_isNegligible {d : Decimal} (h : d.isNegligible = true) :
    d.value < 2 ^ (-1075 : Int) := by
  have hle : (d.coefficient.log2 : Int) + 1 ≤ 3 * (-330 - d.exponent) := of_decide_eq_true h
  obtain ⟨k, hk⟩ : ∃ k : Nat, -330 - d.exponent = k := ⟨(-330 - d.exponent).toNat, by omega⟩
  rw [hk] at hle
  have hcoefficient : (d.coefficient : ℚ) < 10 ^ k := by
    have hpow : d.coefficient < 8 ^ k := by
      calc d.coefficient < 2 ^ (d.coefficient.log2 + 1) := Nat.lt_log2_self
        _ ≤ 2 ^ (3 * k) := Nat.pow_le_pow_right (by decide) (by omega)
        _ = 8 ^ k := by rw [Nat.pow_mul]
    calc (d.coefficient : ℚ) < 8 ^ k := by exact_mod_cast hpow
      _ ≤ 10 ^ k := by gcongr; norm_num
  calc d.value = d.coefficient * 10 ^ d.exponent := rfl
    _ < 10 ^ k * 10 ^ d.exponent := by gcongr
    _ = 10 ^ (-330 : Int) := by
      rw [← zpow_natCast, ← zpow_add₀ (by norm_num)]
      congr 1
      omega
    _ < 2 ^ (-1075 : Int) := by
      have hpowers : (2 : Nat) ^ 1075 < 10 ^ 330 := by decide +kernel
      rw [zpow_neg, zpow_neg]
      exact inv_strictAnti₀ (by positivity) (by exact_mod_cast hpowers)

/-- A decimal with a large exponent is above all doubles. -/
theorem value_of_large {d : Decimal} (hd : 0 < d.coefficient) (h : 310 < d.exponent) :
    (2 : ℚ) ^ (1024 : Int) ≤ d.value := by
  have hone : (1 : ℚ) ≤ d.coefficient := by exact_mod_cast hd
  have hpowers : (2 : Nat) ^ 1024 ≤ 10 ^ 310 := by decide +kernel
  calc (2 : ℚ) ^ (1024 : Int) ≤ 10 ^ (310 : Int) := by exact_mod_cast hpowers
    _ ≤ 10 ^ d.exponent := zpow_le_zpow_right₀ (by norm_num) h.le
    _ ≤ d.coefficient * 10 ^ d.exponent := le_mul_of_one_le_left (by positivity) hone

/-- The double of a decimal is the one nearest to its number. -/
theorem toDouble_eq {d : Decimal} {n m : Nat} (hm : 0 < m) (h : (n : ℚ) / m = d.value) :
    d.toDouble = Double.ofRatio false n m := by
  have hbits : Double.ofRatio false n m = Double.ofParts false (roundedBits n m) := rfl
  unfold toDouble
  by_cases hzero : d.coefficient = 0
  · have hn : n = 0 := by
      rw [value, hzero, Nat.cast_zero, zero_mul] at h
      have hm' : (m : ℚ) ≠ 0 := by exact_mod_cast hm.ne'
      simpa [hm'] using h
    rw [hbits, hn]
    simp [hzero, Double.zero, roundedBits]
  by_cases hsmall : d.isNegligible = true
  · rw [hbits, roundedBits_of_small hm (by rw [h]; exact value_of_isNegligible hsmall)]
    simp [hsmall, Double.zero]
  simp only [hzero, hsmall, decide_false, Bool.or_self, Bool.false_eq_true, if_false]
  by_cases hlarge : 310 < d.exponent
  · have hvalue := value_of_large (Nat.pos_of_ne_zero hzero) hlarge
    rw [if_pos hlarge, hbits, roundedBits_of_large hm (by rw [h]; exact hvalue)]
    rfl
  rw [if_neg hlarge, hbits]
  by_cases hexponent : 0 ≤ d.exponent
  · obtain ⟨k, hk⟩ := Int.eq_ofNat_of_zero_le hexponent
    rw [if_pos hexponent, hk, Int.toNat_natCast]
    refine congrArg (Double.ofParts false) (roundedBits_congr Nat.one_pos hm ?_)
    rw [h, value, hk]
    push_cast [Nat.pow_eq, zpow_natCast]
    rw [div_one]
  · obtain ⟨k, hk⟩ : ∃ k : Nat, d.exponent = -(k : Int) := ⟨(-d.exponent).toNat, by omega⟩
    rw [if_neg hexponent, hk, neg_neg, Int.toNat_natCast]
    refine congrArg (Double.ofParts false)
      (roundedBits_congr (show 0 < 10 ^ k from Nat.pow_pos (by decide)) hm ?_)
    rw [h, value, hk]
    push_cast [Nat.pow_eq, zpow_neg, zpow_natCast]
    rw [div_eq_mul_inv]

theorem exists_ratio (d : Decimal) : ∃ n m : Nat, 0 < m ∧ (n : ℚ) / m = d.value := by
  refine ⟨d.value.num.toNat, d.value.den, d.value.pos, ?_⟩
  have hnum : 0 ≤ d.value.num := Rat.num_nonneg.mpr d.value_nonneg
  have hcast : ((d.value.num.toNat : Int) : ℚ) = d.value.num := by rw [Int.toNat_of_nonneg hnum]
  rw [← Int.cast_natCast, hcast, Rat.num_div_den]

/-- Decimals of one number have the same double. -/
theorem toDouble_congr {d d' : Decimal} (h : d.value = d'.value) : d.toDouble = d'.toDouble := by
  obtain ⟨n, m, hm, hvalue⟩ := d.exists_ratio
  rw [toDouble_eq hm hvalue, toDouble_eq hm (hvalue.trans h)]

/-- A decimal whose double is finite and not zero lies between the powers of ten around all such
doubles. -/
theorem value_bounds {d : Decimal} {bits : Nat} (h : d.toDouble = Double.ofParts false bits)
    (hpos : 0 < bits) (hfinite : bits < Double.infinityBits) :
    (10 : ℚ) ^ (-330 : Int) < d.value ∧ d.value < 10 ^ (310 : Int) := by
  obtain ⟨n, m, hm, hvalue⟩ := d.exists_ratio
  have hinfinity : Double.infinityBits < 2 ^ 63 := by decide
  have hbits : roundedBits n m = bits := by
    have hle : roundedBits n m ≤ Double.infinityBits := by
      unfold roundedBits
      split_ifs
      · exact Nat.zero_le _
      · exact Nat.min_le_left _ _
    rw [toDouble_eq hm hvalue, Double.ofRatio] at h
    have hmagnitude := congrArg Double.magnitudeBits h
    rwa [Double.magnitudeBits_ofParts _ (by omega), Double.magnitudeBits_ofParts _ (by omega)]
      at hmagnitude
  constructor
  · have hpowers : (2 : Nat) ^ 1075 < 10 ^ 330 := by decide +kernel
    by_contra hsmall
    have hround : roundedBits n m = 0 := by
      refine roundedBits_of_small hm ?_
      rw [hvalue]
      refine lt_of_le_of_lt (not_lt.mp hsmall) ?_
      rw [zpow_neg, zpow_neg]
      exact inv_strictAnti₀ (by positivity) (by exact_mod_cast hpowers)
    omega
  · have hpowers : (2 : Nat) ^ 1024 ≤ 10 ^ 310 := by decide +kernel
    by_contra hlarge
    have hround : roundedBits n m = Double.infinityBits := by
      refine roundedBits_of_large hm ?_
      rw [hvalue]
      exact le_trans (by exact_mod_cast hpowers) (not_lt.mp hlarge)
    omega

end Decimal

/-! ### The shortest decimal -/

/-- What is found among the decimals with so many digits reads back. -/
theorem readsBack?_eq_some {tie : Tie} {magnitude : Double} {n m : Nat} {scale : Int}
    {digits : Nat} {d : Decimal} (h : readsBack? tie magnitude n m scale digits = some d) :
    d.toDouble = magnitude := by
  simp only [readsBack?] at h
  split_ifs at h with htie hnear hfar hnear hfar <;> obtain rfl := Option.some.inj h <;> assumption

/-- The decimal that is written for an exact number reads back to its nearest double. -/
theorem shortest_toDouble (tie : Tie) (x : Exact) :
    (shortest tie x).toDouble = Double.ofRatio false x.ratio.1 x.ratio.2 := by
  obtain ⟨hbottom, hvalue⟩ := x.ratio_spec
  simp only [shortest]
  rcases hfound : (List.range 17).findSome? _ with _ | d
  · rw [Option.getD_none]
    refine Decimal.toDouble_eq hbottom ?_
    by_cases hexponent : 0 ≤ x.exponent
    · have hone : x.ratio.2 = 1 := by rw [Exact.ratio, if_pos hexponent]
      rw [if_pos hexponent, Decimal.value, hone, Nat.cast_one, div_one, zpow_zero, mul_one]
    · obtain ⟨k, hk⟩ : ∃ k : Nat, x.exponent = -(k : Int) := ⟨(-x.exponent).toNat, by omega⟩
      rw [if_neg hexponent, hvalue, Decimal.value, hk]
      push_cast [Nat.pow_eq, neg_neg, Int.toNat_natCast, zpow_neg, zpow_natCast]
      rw [show (10 : ℚ) = 5 * 2 by norm_num, mul_pow]
      field_simp
  · obtain ⟨i, -, hi⟩ := List.exists_of_findSome?_eq_some hfound
    rw [Option.getD_some]
    exact readsBack?_eq_some hi

/-! ### Digits -/

theorem ofDigits_eq_ofDigitChars (digits : List Char) :
    ofDigits digits = Nat.ofDigitChars 10 digits 0 :=
  ofDigits_eq_foldl digits

theorem ofDigits_toDigits (n : Nat) : ofDigits (Nat.toDigits 10 n) = n := by
  rw [ofDigits_eq_ofDigitChars, Nat.ofDigitChars_ten_toDigits]

theorem ofDigits_append (digits digits' : List Char) :
    ofDigits (digits ++ digits') = ofDigits digits * 10 ^ digits'.length + ofDigits digits' := by
  simp only [ofDigits_eq_ofDigitChars]
  rw [Nat.ofDigitChars_append, Nat.ofDigitChars_eq_ofDigitChars_zero, Nat.mul_comm]

theorem ofDigits_zeros (n : Nat) : ofDigits (List.replicate n '0') = 0 := by
  rw [ofDigits_eq_ofDigitChars, Nat.ofDigitChars_replicate_zero, Nat.mul_zero]

theorem ofDigits_zeros_append (n : Nat) (digits : List Char) :
    ofDigits (List.replicate n '0' ++ digits) = ofDigits digits := by
  rw [ofDigits_append, ofDigits_zeros, Nat.zero_mul, Nat.zero_add]

theorem ofDigits_append_zeros (digits : List Char) (n : Nat) :
    ofDigits (digits ++ List.replicate n '0') = ofDigits digits * 10 ^ n := by
  rw [ofDigits_append, ofDigits_zeros, Nat.add_zero, List.length_replicate]

theorem isDigit_zeros {n : Nat} {c : Char} (h : c ∈ List.replicate n '0') :
    Text.isDigit c = true := by
  rw [List.eq_of_mem_replicate h]
  decide

theorem isDigit_toDigits {n : Nat} {c : Char} (h : c ∈ Nat.toDigits 10 n) :
    Text.isDigit c = true := by
  have hdigit := Nat.isDigit_of_mem_toDigits (by decide) (by decide) h
  simpa [Char.isDigit, Text.isDigit, Char.le_def] using hdigit

theorem ne_sign_of_isDigit {c : Char} (h : Text.isDigit c = true) : c ≠ '+' ∧ c ≠ '-' := by
  constructor
  all_goals
    rintro rfl
    exact absurd h (by decide)

/-- The digits of a positive number do not begin with a zero. -/
theorem head?_toDigits {n : Nat} (h : 0 < n) : (Nat.toDigits 10 n).head? ≠ some '0' := by
  induction n using Nat.strongRecOn with
  | ind n ih =>
    rw [Nat.toDigits_eq_if (by decide)]
    split_ifs with hlt
    · rw [List.head?_singleton, ne_eq, Option.some.injEq]
      have hdigits : ∀ n < 10, 0 < n → n.digitChar ≠ '0' := by decide
      exact hdigits n hlt h
    · rw [List.head?_append_of_ne_nil _ Nat.toDigits_ne_nil]
      exact ih (n / 10) (by omega) (by omega)

/-- An exponent that is not too large is read as written. -/
theorem exponentMagnitude_eq {digits : List Char} (h : ofDigits digits < 65536) :
    exponentMagnitude digits = ofDigits digits := by
  have hle (digits : List Char) (acc : Nat) :
      acc ≤ digits.foldl (fun n c => 10 * n + Text.digitValue c) acc := by
    induction digits generalizing acc with
    | nil => exact Nat.le_refl _
    | cons c rest ih =>
      have hstep : acc ≤ 10 * acc + Text.digitValue c := by omega
      exact Nat.le_trans hstep (ih _)
  have hfold (digits : List Char) (acc : Nat)
      (hlt : digits.foldl (fun n c => 10 * n + Text.digitValue c) acc < 65536) :
      digits.foldl (fun n c => if n < 65536 then 10 * n + Text.digitValue c else n) acc =
        digits.foldl (fun n c => 10 * n + Text.digitValue c) acc := by
    induction digits generalizing acc with
    | nil => rfl
    | cons c rest ih =>
      have hacc := hle (c :: rest) acc
      rw [List.foldl_cons, List.foldl_cons, if_pos (by omega)]
      exact ih _ hlt
  rw [ofDigits_eq_foldl] at h ⊢
  exact hfold _ _ h

/-- The zeros dropped from the end of digits. -/
theorem exists_dropZeros (digits : List Char) :
    ∃ n, Layout.dropZeros digits ++ List.replicate n '0' = digits := by
  have htake : digits.reverse.takeWhile (· == '0') =
      List.replicate (digits.reverse.takeWhile (· == '0')).length '0' := by
    refine List.eq_replicate_iff.mpr ⟨rfl, fun c hc => ?_⟩
    simpa using List.all_eq_true.mp List.all_takeWhile c hc
  refine ⟨(digits.reverse.takeWhile (· == '0')).length, ?_⟩
  have hsplit := congrArg List.reverse
    (List.takeWhile_append_dropWhile (p := (· == '0')) (l := digits.reverse))
  rw [List.reverse_append, List.reverse_reverse] at hsplit
  rw [← List.reverse_replicate, ← htake]
  exact hsplit

/-! ### Numerals -/

/-- The parts of a written number: digits before and behind the point, and the digits of an exponent
with its sign. -/
structure Numeral where
  whole : List Char
  fraction : List Char
  exponent : Option (Bool × List Char)

namespace Numeral

/-- The characters of the exponent; it may be spelt with a plus sign if it is not negative. -/
def exponentChars (n : Numeral) (plusSign : Bool) : List Char :=
  match n.exponent with
  | none => []
  | some (negative, digits) =>
    'e' :: ((if negative then ['-'] else if plusSign then ['+'] else []) ++ digits)

/-- The characters of the number. -/
def chars (n : Numeral) (plusSign : Bool) : List Char :=
  n.whole ++ ((if n.fraction.isEmpty then [] else '.' :: n.fraction) ++ n.exponentChars plusSign)

/-- The exponent that is written, zero if there is none. -/
def power (n : Numeral) : Int :=
  match n.exponent with
  | none => 0
  | some (negative, digits) => exponentOf negative digits

/-- The decimal that is written. -/
def decimal (n : Numeral) : Decimal :=
  ⟨ofDigits (n.whole ++ n.fraction), n.power - n.fraction.length⟩

/-- There is a digit in front, which is a zero only if it stands alone, there are digits where there
should be, and a point or an exponent tells the number from an integer. -/
structure WellFormed (n : Numeral) : Prop where
  whole : n.whole ≠ [] ∧ ∀ c ∈ n.whole, Text.isDigit c = true
  lead : n.whole = ['0'] ∨ n.whole.head? ≠ some '0'
  fraction : ∀ c ∈ n.fraction, Text.isDigit c = true
  exponent : ∀ e ∈ n.exponent, e.2 ≠ [] ∧ ∀ c ∈ e.2, Text.isDigit c = true
  moderate : ∀ e ∈ n.exponent, ofDigits e.2 < 65536
  marked : n.fraction ≠ [] ∨ n.exponent.isSome = true

end Numeral

namespace Layout

variable {digits : List Char} (point : Int)

/-- The positional form of digits is a numeral of their number. -/
theorem place_numeral (hne : digits ≠ []) (hdigits : ∀ c ∈ digits, Text.isDigit c = true)
    (hlead : digits.head? ≠ some '0') (plusSign : Bool) :
    ∃ n : Numeral, n.WellFormed ∧ n.chars plusSign = place digits point true ∧
      n.decimal.value = ofDigits digits * 10 ^ (point - digits.length) := by
  unfold place
  by_cases hpoint : point ≤ 0
  · obtain ⟨k, rfl⟩ : ∃ k : Nat, point = -(k : Int) := ⟨(-point).toNat, by omega⟩
    refine ⟨⟨['0'], List.replicate k '0' ++ digits, none⟩,
      ⟨?_, .inl rfl, ?_, by simp, by simp, ?_⟩, ?_, ?_⟩
    · exact ⟨by simp, fun c hc => isDigit_zeros (n := 1) hc⟩
    · exact List.forall_mem_append.mpr ⟨fun c hc => isDigit_zeros hc, hdigits⟩
    · simp [hne]
    · simp [Numeral.chars, Numeral.exponentChars, hne]
    · have hcoefficient : ofDigits (['0'] ++ (List.replicate k '0' ++ digits)) = ofDigits digits :=
        ofDigits_zeros_append (k + 1) digits
      simp only [Decimal.value, Numeral.decimal, Numeral.power, hcoefficient, List.length_append,
        List.length_replicate]
      congr 2
      push_cast
      ring
  · obtain ⟨k, rfl⟩ : ∃ k : Nat, point = k := ⟨point.toNat, by omega⟩
    rw [if_neg hpoint, Int.toNat_natCast]
    by_cases hlength : digits.length ≤ k
    · refine ⟨⟨digits ++ List.replicate (k - digits.length) '0', ['0'], none⟩,
        ⟨?_, .inr ?_, ?_, by simp, by simp, by simp⟩, ?_, ?_⟩
      · exact ⟨by simp [hne], List.forall_mem_append.mpr ⟨hdigits, fun c hc => isDigit_zeros hc⟩⟩
      · rwa [List.head?_append_of_ne_nil _ hne]
      · exact fun c hc => isDigit_zeros (n := 1) hc
      · simp [Numeral.chars, Numeral.exponentChars, hlength]
      · have hcoefficient : ofDigits (digits ++ List.replicate (k - digits.length) '0' ++ ['0']) =
            ofDigits digits * 10 ^ (k - digits.length + 1) := by
          rw [List.append_assoc, ← List.replicate_succ', ofDigits_append_zeros]
        simp only [Decimal.value, Numeral.decimal, Numeral.power, hcoefficient,
          List.length_singleton]
        push_cast
        rw [mul_assoc, ← zpow_natCast, ← zpow_add₀ (by norm_num)]
        congr 2
        omega
    · refine ⟨⟨digits.take k, digits.drop k, none⟩,
        ⟨⟨?_, ?_⟩, .inr ?_, ?_, by simp, by simp, ?_⟩, ?_, ?_⟩
      · simp only [ne_eq, List.take_eq_nil_iff, hne, or_false]
        omega
      · exact fun c hc => hdigits c (List.mem_of_mem_take hc)
      · rwa [List.head?_take, if_neg (by omega)]
      · exact fun c hc => hdigits c (List.mem_of_mem_drop hc)
      · simpa using hlength
      · simp [Numeral.chars, Numeral.exponentChars, hlength]
      · simp only [Decimal.value, Numeral.decimal, Numeral.power, List.take_append_drop,
          List.length_drop]
        congr 2
        omega

/-- The form of digits with an exponent is a numeral of their number. -/
theorem scale_numeral (hne : digits ≠ []) (hdigits : ∀ c ∈ digits, Text.isDigit c = true)
    (hlead : digits.head? ≠ some '0') (hpoint : (point - 1).natAbs < 65536) (plusSign : Bool) :
    ∃ n : Numeral, n.WellFormed ∧ n.chars plusSign = scale digits point plusSign ∧
      n.decimal.value = ofDigits digits * 10 ^ (point - digits.length) := by
  have hlength : 0 < digits.length := List.length_pos_iff.mpr hne
  refine ⟨⟨digits.take 1, digits.drop 1,
    some (decide (point - 1 < 0), Nat.toDigits 10 (point - 1).natAbs)⟩,
    ⟨⟨?_, ?_⟩, .inr ?_, ?_, ?_, ?_, by simp⟩, ?_, ?_⟩
  · simp [hne]
  · exact fun c hc => hdigits c (List.mem_of_mem_take hc)
  · rwa [List.head?_take, if_neg Nat.one_ne_zero]
  · exact fun c hc => hdigits c (List.mem_of_mem_drop hc)
  · rintro _ ⟨⟩
    exact ⟨Nat.toDigits_ne_nil, fun c hc => isDigit_toDigits hc⟩
  · rintro _ ⟨⟩
    rwa [ofDigits_toDigits]
  · simp only [Numeral.chars, Numeral.exponentChars, scale, List.isEmpty_iff,
      List.drop_eq_nil_iff, decide_eq_true_eq, List.append_assoc]
  · have hpower : exponentOf (decide (point - 1 < 0)) (Nat.toDigits 10 (point - 1).natAbs) =
        point - 1 := by
      rw [exponentOf, exponentMagnitude_eq (by rwa [ofDigits_toDigits]), ofDigits_toDigits]
      simp only [decide_eq_true_eq]
      split_ifs <;> omega
    simp only [Decimal.value, Numeral.decimal, Numeral.power, List.take_append_drop,
      List.length_drop, hpower]
    congr 2
    omega

/-- A decimal with digits lies between two powers of ten by the place of its point. -/
theorem value_point {d : Decimal} (h : 0 < d.coefficient) :
    (10 : ℚ) ^ ((digitCount d.coefficient : Int) + d.exponent - 1) ≤ d.value ∧
      d.value < 10 ^ ((digitCount d.coefficient : Int) + d.exponent) := by
  have hlength : 0 < digitCount d.coefficient := Nat.length_toDigits_pos
  have hhigh : d.coefficient < 10 ^ digitCount d.coefficient :=
    (Nat.length_toDigits_le_iff (by decide) hlength).mp (Nat.le_refl _)
  have hlow : 10 ^ (digitCount d.coefficient - 1) ≤ d.coefficient := by
    rcases Nat.eq_zero_or_pos (digitCount d.coefficient - 1) with hzero | hpos
    · rw [hzero]
      exact h
    · by_contra hlt
      have hle := (Nat.length_toDigits_le_iff (by decide) hpos).mpr (not_le.mp hlt)
      have hle : digitCount d.coefficient ≤ digitCount d.coefficient - 1 := hle
      omega
  have hlow' : (10 : ℚ) ^ (digitCount d.coefficient - 1) ≤ d.coefficient := by exact_mod_cast hlow
  have hhigh' : (d.coefficient : ℚ) < 10 ^ digitCount d.coefficient := by exact_mod_cast hhigh
  constructor
  · calc (10 : ℚ) ^ ((digitCount d.coefficient : Int) + d.exponent - 1)
        = 10 ^ (digitCount d.coefficient - 1) * 10 ^ d.exponent := by
          rw [← zpow_natCast, ← zpow_add₀ (by norm_num)]
          congr 1
          omega
      _ ≤ d.value := by
        unfold Decimal.value
        gcongr
  · calc d.value < 10 ^ digitCount d.coefficient * 10 ^ d.exponent := by
          unfold Decimal.value
          gcongr
      _ = 10 ^ ((digitCount d.coefficient : Int) + d.exponent) := by
          rw [← zpow_natCast, ← zpow_add₀ (by norm_num)]

/-- The digits that are written of a decimal, with its point behind as many as before, are those of
its number. -/
theorem dropZeros_value {d : Decimal} (h : 0 < d.coefficient) :
    dropZeros (Nat.toDigits 10 d.coefficient) ≠ [] ∧
      (∀ c ∈ dropZeros (Nat.toDigits 10 d.coefficient), Text.isDigit c = true) ∧
      (dropZeros (Nat.toDigits 10 d.coefficient)).head? ≠ some '0' ∧
      (ofDigits (dropZeros (Nat.toDigits 10 d.coefficient)) : ℚ) *
        10 ^ ((digitCount d.coefficient : Int) + d.exponent -
          (dropZeros (Nat.toDigits 10 d.coefficient)).length) = d.value := by
  obtain ⟨zeros, hzeros⟩ := exists_dropZeros (Nat.toDigits 10 d.coefficient)
  have hread := ofDigits_toDigits d.coefficient
  rw [← hzeros, ofDigits_append_zeros] at hread
  have hne : dropZeros (Nat.toDigits 10 d.coefficient) ≠ [] := by
    intro hnil
    rw [hnil, show ofDigits [] = 0 from rfl, Nat.zero_mul] at hread
    omega
  refine ⟨hne, ?_, ?_, ?_⟩
  · exact fun c hc => isDigit_toDigits (hzeros ▸ List.mem_append_left _ hc)
  · have hhead := head?_toDigits h
    rwa [← hzeros, List.head?_append_of_ne_nil _ hne] at hhead
  · have hlength : (dropZeros (Nat.toDigits 10 d.coefficient)).length + zeros =
        digitCount d.coefficient := by
      rw [digitCount, ← congrArg List.length hzeros, List.length_append, List.length_replicate]
    have hcast : (d.coefficient : ℚ) =
        ofDigits (dropZeros (Nat.toDigits 10 d.coefficient)) * 10 ^ zeros := by
      exact_mod_cast hread.symm
    rw [Decimal.value, hcast, mul_assoc, ← zpow_natCast, ← zpow_add₀ (by norm_num)]
    congr 2
    omega

/-- What a finite double is written as, in a layout that shows a point or an exponent, is a numeral
whose nearest double it is, up to the sign. -/
theorem writeMagnitude_numeral (layout : Layout) (hpoint : layout.keepPoint = true) {x : Double}
    {e : Exact} (h : x.exact? = some e) :
    ∃ n : Numeral, n.WellFormed ∧ n.chars layout.plusSign = layout.writeMagnitude e ∧
      n.decimal.toDouble = Double.ofParts false x.magnitudeBits := by
  have hbits := Double.roundedBits_exact h
  unfold writeMagnitude
  rw [hpoint]
  by_cases hzero : e.significand = 0
  · rw [if_pos hzero]
    refine ⟨⟨['0'], ['0'], none⟩, ⟨⟨by simp, ?_⟩, .inl rfl, ?_, by simp, by simp, by simp⟩, rfl, ?_⟩
    · exact fun c hc => isDigit_zeros (n := 1) hc
    · exact fun c hc => isDigit_zeros (n := 1) hc
    · have hn : e.ratio.1 = 0 := by
        unfold Exact.ratio
        split_ifs <;> simp [hzero]
      rw [hn] at hbits
      rw [← hbits]
      rfl
  · obtain ⟨-, hfinite, -, -, -, hparts⟩ := Double.exact_spec h
    have hdouble : (shortest layout.tie e).toDouble = Double.ofParts false x.magnitudeBits := by
      rw [shortest_toDouble, Double.ofRatio, hbits]
    rw [if_neg hzero]
    generalize shortest layout.tie e = d at hdouble
    obtain ⟨hlow, hhigh⟩ := Decimal.value_bounds hdouble (by omega) hfinite
    have hcoefficient : 0 < d.coefficient := by
      rcases Nat.eq_zero_or_pos d.coefficient with hc | hc
      · rw [Decimal.value, hc, Nat.cast_zero, zero_mul] at hlow
        exact absurd hlow (not_lt.mpr (by positivity))
      · exact hc
    obtain ⟨hfloor, hceiling⟩ := value_point hcoefficient
    have hpointLow : -330 < (digitCount d.coefficient : Int) + d.exponent :=
      (zpow_lt_zpow_iff_right₀ (by norm_num : (1 : ℚ) < 10)).mp (hlow.trans hceiling)
    have hpointHigh : (digitCount d.coefficient : Int) + d.exponent - 1 < 310 :=
      (zpow_lt_zpow_iff_right₀ (by norm_num : (1 : ℚ) < 10)).mp (lt_of_le_of_lt hfloor hhigh)
    obtain ⟨hne, hdigits, hlead, hvalue⟩ := dropZeros_value hcoefficient
    have hplace := place_numeral (digitCount d.coefficient + d.exponent) hne hdigits hlead
      layout.plusSign
    have hscale := scale_numeral (digitCount d.coefficient + d.exponent) hne hdigits hlead
      (by omega) layout.plusSign
    rw [hvalue] at hplace hscale
    dsimp only
    generalize dropZeros (Nat.toDigits 10 d.coefficient) = digits at hplace hscale ⊢
    generalize (digitCount d.coefficient : Int) + d.exponent = point at hplace hscale ⊢
    have hround {text : List Char}
        (hform : ∃ n : Numeral, n.WellFormed ∧ n.chars layout.plusSign = text ∧
          n.decimal.value = d.value) :
        ∃ n : Numeral, n.WellFormed ∧ n.chars layout.plusSign = text ∧
          n.decimal.toDouble = Double.ofParts false x.magnitudeBits := by
      obtain ⟨n, hwell, hchars, hn⟩ := hform
      exact ⟨n, hwell, hchars, (Decimal.toDouble_congr hn).trans hdouble⟩
    rcases layout.positional with _ | ⟨low, high⟩
    · exact hround hplace
    · dsimp only
      split_ifs
      · exact hround hplace
      · exact hround hscale

end Layout

end Covenant.Number
