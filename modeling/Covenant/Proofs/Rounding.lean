import Covenant.Number.Rounding
import Mathlib.Algebra.Order.Field.Power
import Mathlib.Data.Int.Log
import Mathlib.Data.Rat.Floor
import Mathlib.Tactic.FieldSimp
import Mathlib.Tactic.Linarith
import Mathlib.Tactic.NormNum
import Mathlib.Tactic.Positivity
import Mathlib.Tactic.Ring

/-!
# Rounding is a function of the number

The nearest double is computed from a numerator and a denominator, with powers of two found from
their lengths. It depends on nothing but their quotient: the scale of the quotient is its logarithm,
and the rounded significand is that of the quotient divided by the power of two of its grid.

A double is its own nearest double. Numbers below half the least double round to zero, and numbers
above all doubles to infinity. Rounding keeps the order.

The double of a 64-bit integer is finite. Conversion keeps the order of integers and tells those
below `2 ^ 53` apart.

## Main results

* `Number.binaryScale_eq_log` : the scale of a fraction is the logarithm of the quotient.
* `Number.roundedBits_congr` : fractions of one number round alike.
* `Number.roundedBits_of_grid` : what lies on the grid of the doubles stays where it is.
* `Number.roundedBits_of_small`, `Number.roundedBits_of_large` : the numbers beyond the doubles.
* `Number.roundedBits_lt` : the numbers well below the greatest doubles.
* `Number.roundedBits_mono` : rounding keeps the order of numbers.
* `Double.roundedBits_exact` : a finite double is the nearest double of what it stands for.
* `Double.rank_ofInteger_mono` : conversion keeps the order of integers.
* `Double.ofInteger_inj` : integers below `2 ^ 53` have different doubles.
-/

namespace Covenant

namespace Number

/-! ### Quotients -/

/-- Dividing by a power of two. -/
theorem dividePower_spec (n : Nat) {d : Nat} (hd : 0 < d) (e : Int) :
    0 < (dividePower n d e).2 ∧
      ((dividePower n d e).1 : ℚ) / (dividePower n d e).2 = (n : ℚ) / d / 2 ^ e := by
  have hd' : (d : ℚ) ≠ 0 := by exact_mod_cast hd.ne'
  unfold dividePower
  by_cases he : 0 ≤ e
  · obtain ⟨k, rfl⟩ := Int.eq_ofNat_of_zero_le he
    rw [if_pos he]
    refine ⟨Nat.mul_pos hd (Nat.pow_pos (by decide)), ?_⟩
    push_cast [Nat.pow_eq, Int.toNat_natCast, zpow_natCast]
    rw [div_div]
  · obtain ⟨k, rfl⟩ : ∃ k : Nat, e = -(k : Int) := ⟨(-e).toNat, by omega⟩
    rw [if_neg he]
    refine ⟨hd, ?_⟩
    push_cast [Nat.pow_eq, neg_neg, Int.toNat_natCast, zpow_neg, zpow_natCast]
    rw [div_inv_eq_mul, mul_div_right_comm]

theorem divided_lt_iff {t b : Nat} (hb : 0 < b) : t < b ↔ (t : ℚ) / b < 1 := by
  have hb' : (0 : ℚ) < b := by exact_mod_cast hb
  rw [div_lt_one hb']
  exact Nat.cast_lt.symm

theorem le_log_iff {q : ℚ} (hq : 0 < q) (k : Int) : k ≤ Int.log 2 q ↔ (2 : ℚ) ^ k ≤ q := by
  simpa using (Int.zpow_le_iff_le_log (b := 2) (by decide) hq).symm

theorem log_lt_iff {q : ℚ} (hq : 0 < q) (k : Int) : Int.log 2 q < k ↔ q < (2 : ℚ) ^ k := by
  simpa using (Int.lt_zpow_iff_log_lt (b := 2) (by decide) hq).symm

/-- The scale of a fraction is the logarithm of the quotient. -/
theorem binaryScale_eq_log {n d : Nat} (hn : 0 < n) (hd : 0 < d) :
    binaryScale n d = Int.log 2 ((n : ℚ) / d) := by
  have hn' : (0 : ℚ) < n := by exact_mod_cast hn
  have hd' : (0 : ℚ) < d := by exact_mod_cast hd
  have hq : (0 : ℚ) < (n : ℚ) / d := div_pos hn' hd'
  have hlow : (2 : ℚ) ^ n.log2 ≤ n := by exact_mod_cast Nat.log2_self_le hn.ne'
  have hhigh : (n : ℚ) < 2 ^ (n.log2 + 1) := by exact_mod_cast Nat.lt_log2_self
  have hlow' : (2 : ℚ) ^ d.log2 ≤ d := by exact_mod_cast Nat.log2_self_le hd.ne'
  have hhigh' : (d : ℚ) < 2 ^ (d.log2 + 1) := by exact_mod_cast Nat.lt_log2_self
  -- The lengths of numerator and denominator leave two powers to choose from.
  have hbelow : (2 : ℚ) ^ ((n.log2 : Int) - d.log2 - 1) ≤ (n : ℚ) / d := by
    rw [le_div_iff₀ hd']
    calc (2 : ℚ) ^ ((n.log2 : Int) - d.log2 - 1) * d
        ≤ (2 : ℚ) ^ ((n.log2 : Int) - d.log2 - 1) * 2 ^ (d.log2 + 1) := by gcongr
      _ = 2 ^ n.log2 := by
        rw [← zpow_natCast, ← zpow_natCast, ← zpow_add₀ (by norm_num)]
        congr 1
        push_cast
        ring
      _ ≤ n := hlow
  have habove : (n : ℚ) / d < (2 : ℚ) ^ ((n.log2 : Int) - d.log2 + 1) := by
    rw [div_lt_iff₀ hd']
    calc (n : ℚ) < 2 ^ (n.log2 + 1) := hhigh
      _ = (2 : ℚ) ^ ((n.log2 : Int) - d.log2 + 1) * 2 ^ d.log2 := by
        rw [← zpow_natCast, ← zpow_natCast, ← zpow_add₀ (by norm_num)]
        congr 1
        push_cast
        ring
      _ ≤ (2 : ℚ) ^ ((n.log2 : Int) - d.log2 + 1) * d := by gcongr
  obtain ⟨hbottom, hdivided⟩ := dividePower_spec n hd ((n.log2 : Int) - d.log2)
  have hpower : (0 : ℚ) < 2 ^ ((n.log2 : Int) - d.log2) := by positivity
  have hsplit := divided_lt_iff (t := (dividePower n d ((n.log2 : Int) - d.log2)).1) hbottom
  rw [hdivided, div_lt_one hpower] at hsplit
  rw [← le_log_iff hq] at hbelow
  rw [← log_lt_iff hq] at habove hsplit
  simp only [binaryScale]
  split_ifs with htop
  · have hlog := hsplit.mp htop
    omega
  · have hlog := mt hsplit.mpr htop
    omega

/-- The nearest integer is that of the quotient. -/
theorem roundQuotient_congr {t b t' b' : Nat} (hb : 0 < b) (hb' : 0 < b')
    (h : (t : ℚ) / b = (t' : ℚ) / b') : roundQuotient t b = roundQuotient t' b' := by
  have hscale (t b c : Nat) (hc : 0 < c) : roundQuotient (t * c) (b * c) = roundQuotient t b := by
    have hlt : 2 * (t % b * c) < b * c ↔ 2 * (t % b) < b := by
      rw [← Nat.mul_assoc]
      exact Nat.mul_lt_mul_right hc
    have heq : 2 * (t % b * c) = b * c ↔ 2 * (t % b) = b := by
      rw [← Nat.mul_assoc]
      exact Nat.mul_left_inj hc.ne'
    simp only [roundQuotient, Nat.mul_div_mul_right _ _ hc, Nat.mul_mod_mul_right, Bool.or_eq_true,
      decide_eq_true_eq, Bool.and_eq_true, beq_iff_eq, hlt, heq]
  have hcross : t * b' = t' * b := by
    rw [div_eq_div_iff (by exact_mod_cast hb.ne') (by exact_mod_cast hb'.ne')] at h
    exact_mod_cast h
  rw [← hscale t b b' hb', ← hscale t' b' b hb, hcross, Nat.mul_comm b b']

theorem roundQuotient_le_roundQuotient {t t' : Nat} (h : t ≤ t') (b : Nat) :
    roundQuotient t b ≤ roundQuotient t' b := by
  have hdiv : t / b ≤ t' / b := Nat.div_le_div_right h
  have hsplit := Nat.div_add_mod t b
  have hsplit' := Nat.div_add_mod t' b
  simp only [roundQuotient]
  rcases hdiv.lt_or_eq with hlt | heq
  · -- Rounding adds at most one, and the quotients differ by that much.
    split_ifs <;> omega
  · rw [heq] at hsplit
    simp only [heq, Bool.or_eq_true, Bool.and_eq_true, decide_eq_true_eq, beq_iff_eq]
    split_ifs <;> omega

/-- The nearest integers are in the order of the quotients. -/
theorem roundQuotient_mono {t b t' b' : Nat} (hb : 0 < b) (hb' : 0 < b')
    (h : (t : ℚ) / b ≤ (t' : ℚ) / b') : roundQuotient t b ≤ roundQuotient t' b' := by
  have hscale {t b c : Nat} (hb : 0 < b) (hc : 0 < c) :
      roundQuotient t b = roundQuotient (t * c) (b * c) := by
    refine roundQuotient_congr hb (Nat.mul_pos hb hc) ?_
    push_cast
    rw [mul_div_mul_right _ _ (by exact_mod_cast hc.ne')]
  have hcross : t * b' ≤ t' * b := by
    rw [div_le_div_iff₀ (by exact_mod_cast hb) (by exact_mod_cast hb')] at h
    exact_mod_cast h
  rw [hscale hb hb', hscale hb' hb, Nat.mul_comm b' b]
  exact roundQuotient_le_roundQuotient hcross _

/-- An integer is its own nearest integer. -/
theorem roundQuotient_of_eq {t b s : Nat} (hb : 0 < b) (h : (t : ℚ) / b = s) :
    roundQuotient t b = s := by
  have hone : roundQuotient s 1 = s := by
    simp [roundQuotient, Nat.mod_one]
  rw [roundQuotient_congr hb (by decide : 0 < 1) (by simpa using h), hone]

theorem le_roundQuotient {t b s : Nat} (hb : 0 < b) (h : (s : ℚ) ≤ (t : ℚ) / b) :
    s ≤ roundQuotient t b :=
  calc s = roundQuotient s 1 := (roundQuotient_of_eq Nat.one_pos (by simp)).symm
    _ ≤ roundQuotient t b := roundQuotient_mono Nat.one_pos hb (by simpa using h)

theorem roundQuotient_le {t b s : Nat} (hb : 0 < b) (h : (t : ℚ) / b ≤ s) :
    roundQuotient t b ≤ s :=
  calc roundQuotient t b ≤ roundQuotient s 1 :=
        roundQuotient_mono hb Nat.one_pos (by simpa using h)
    _ = s := roundQuotient_of_eq Nat.one_pos (by simp)

/-- Fractions of one number round alike. -/
theorem roundedBits_congr {n d n' d' : Nat} (hd : 0 < d) (hd' : 0 < d')
    (h : (n : ℚ) / d = (n' : ℚ) / d') : roundedBits n d = roundedBits n' d' := by
  have hzero : n = 0 ↔ n' = 0 := by
    have hiff : (n : ℚ) / d = 0 ↔ (n' : ℚ) / d' = 0 := by rw [h]
    simpa [hd.ne', hd'.ne'] using hiff
  unfold roundedBits
  by_cases hn : n = 0
  · rw [if_pos hn, if_pos (hzero.mp hn)]
  · have hn' := mt hzero.mpr hn
    rw [if_neg hn, if_neg hn']
    have hgrid : gridExponent n d = gridExponent n' d' := by
      rw [gridExponent, gridExponent, binaryScale_eq_log (by omega) hd,
        binaryScale_eq_log (by omega) hd', h]
    obtain ⟨hbottom, hdivided⟩ := dividePower_spec n hd (gridExponent n d)
    obtain ⟨hbottom', hdivided'⟩ := dividePower_spec n' hd' (gridExponent n d)
    rw [h, ← hdivided'] at hdivided
    dsimp only
    rw [← hgrid, roundQuotient_congr hbottom hbottom' hdivided]

/-! ### On the grid and beyond it -/

/-- The bits of a number by the multiple of its grid that is nearest. -/
theorem roundedBits_eq {n d : Nat} (hn : 0 < n) (hd : 0 < d) {e : Int}
    (he : max (Int.log 2 ((n : ℚ) / d) - 52) (-1074) = e) :
    ∃ t b : Nat, 0 < b ∧ (t : ℚ) / b = (n : ℚ) / d / 2 ^ e ∧ roundedBits n d =
      min Double.infinityBits ((e + 1074).toNat * 2 ^ 52 + roundQuotient t b) := by
  obtain ⟨hbottom, hdivided⟩ := dividePower_spec n hd e
  refine ⟨_, _, hbottom, hdivided, ?_⟩
  have hgrid : gridExponent n d = e := by rw [gridExponent, binaryScale_eq_log hn hd, he]
  rw [roundedBits, if_neg hn.ne']
  dsimp only
  rw [hgrid]
  rfl

/-- The significand on the grid of a number is at least that of the least double of its scale. -/
theorem le_roundQuotient_of_grid {q : ℚ} (hq : 0 < q) {e : Int} (he : e + 52 ≤ Int.log 2 q)
    {t b : Nat} (hb : 0 < b) (h : (t : ℚ) / b = q / 2 ^ e) : 2 ^ 52 ≤ roundQuotient t b := by
  refine le_roundQuotient hb ?_
  rw [h, le_div_iff₀ (by positivity)]
  calc ((2 ^ 52 : Nat) : ℚ) * 2 ^ e = 2 ^ (e + 52) := by
        rw [zpow_add₀ (by norm_num), mul_comm]
        norm_num
    _ ≤ q := (le_log_iff hq _).mp he

/-- The significand on the grid of a number is at most that of the least double of the scale above
its own. -/
theorem roundQuotient_le_of_grid {q : ℚ} (hq : 0 < q) {e : Int} (he : Int.log 2 q < e + 53)
    {t b : Nat} (hb : 0 < b) (h : (t : ℚ) / b = q / 2 ^ e) : roundQuotient t b ≤ 2 ^ 53 := by
  refine roundQuotient_le hb ?_
  rw [h, div_le_iff₀ (by positivity)]
  calc q ≤ 2 ^ (e + 53) := ((log_lt_iff hq _).mp he).le
    _ = ((2 ^ 53 : Nat) : ℚ) * 2 ^ e := by
      rw [zpow_add₀ (by norm_num), mul_comm]
      norm_num

/-- What lies on the grid of the doubles stays where it is. -/
theorem roundedBits_of_grid {n d s : Nat} {e : Int} (hd : 0 < d) (hs : 0 < s) (hlt : s < 2 ^ 53)
    (he : -1074 ≤ e) (hnormal : 2 ^ 52 ≤ s ∨ e = -1074) (h : (n : ℚ) / d = s * 2 ^ e) :
    roundedBits n d = min Double.infinityBits ((e + 1074).toNat * 2 ^ 52 + s) := by
  have hpower : (0 : ℚ) < 2 ^ e := by positivity
  have hs' : (0 : ℚ) < s := by exact_mod_cast hs
  have hq : (0 : ℚ) < (n : ℚ) / d := by rw [h]; positivity
  have hn : 0 < n := by
    rcases Nat.eq_zero_or_pos n with rfl | hn
    · simp at hq
    · exact hn
  have hhigh : Int.log 2 ((n : ℚ) / d) < e + 53 := by
    rw [log_lt_iff hq, h, zpow_add₀ (by norm_num), mul_comm]
    gcongr
    exact_mod_cast hlt
  have hgrid : max (Int.log 2 ((n : ℚ) / d) - 52) (-1074) = e := by
    rcases hnormal with hnormal | rfl
    · have hlow : e + 52 ≤ Int.log 2 ((n : ℚ) / d) := by
        rw [le_log_iff hq, h, zpow_add₀ (by norm_num), mul_comm]
        gcongr
        exact_mod_cast hnormal
      omega
    · omega
  obtain ⟨t, b, hb, hdivided, hbits⟩ := roundedBits_eq hn hd hgrid
  rw [h, mul_div_assoc, div_self hpower.ne', mul_one] at hdivided
  rw [hbits, roundQuotient_of_eq hb hdivided]

/-- Numbers below half the least double round to zero. -/
theorem roundedBits_of_small {n d : Nat} (hd : 0 < d) (h : (n : ℚ) / d < 2 ^ (-1075 : Int)) :
    roundedBits n d = 0 := by
  rcases Nat.eq_zero_or_pos n with rfl | hn
  · rfl
  have hq : (0 : ℚ) < (n : ℚ) / d := by positivity
  have hlog := (log_lt_iff hq (-1075)).mpr h
  obtain ⟨t, b, hb, hdivided, hbits⟩ :=
    roundedBits_eq hn hd (show max (Int.log 2 ((n : ℚ) / d) - 52) (-1074) = -1074 by omega)
  have hb' : (0 : ℚ) < b := by exact_mod_cast hb
  have hhalf : 2 * t < b := by
    have hlt : (t : ℚ) / b < 1 / 2 := by
      rw [hdivided, div_lt_iff₀ (by positivity)]
      calc (n : ℚ) / d < 2 ^ (-1075 : Int) := h
        _ = 1 / 2 * 2 ^ (-1074 : Int) := by
          rw [show (-1075 : Int) = -1 + -1074 by rfl, zpow_add₀ (by norm_num)]
          norm_num
    rw [div_lt_iff₀ hb'] at hlt
    have hlt : (2 : ℚ) * t < b := by linarith
    exact_mod_cast hlt
  have hround : roundQuotient t b = 0 := by
    have hdiv : t / b = 0 := Nat.div_eq_of_lt (by omega)
    have hmod : t % b = t := Nat.mod_eq_of_lt (by omega)
    simp [roundQuotient, hdiv, hmod, hhalf]
  rw [hbits, hround]
  rfl

/-- Numbers above all doubles round to infinity. -/
theorem roundedBits_of_large {n d : Nat} (hd : 0 < d) (h : (2 : ℚ) ^ (1024 : Int) ≤ (n : ℚ) / d) :
    roundedBits n d = Double.infinityBits := by
  have hq : (0 : ℚ) < (n : ℚ) / d := lt_of_lt_of_le (by positivity) h
  have hn : 0 < n := by
    rcases Nat.eq_zero_or_pos n with rfl | hn
    · simp at hq
    · exact hn
  have hlog := (le_log_iff hq 1024).mpr h
  obtain ⟨t, b, hb, hdivided, hbits⟩ := roundedBits_eq hn hd
    (show max (Int.log 2 ((n : ℚ) / d) - 52) (-1074) = Int.log 2 ((n : ℚ) / d) - 52 by omega)
  have hquotient : 2 ^ 52 ≤ roundQuotient t b :=
    le_roundQuotient_of_grid hq (by omega) hb hdivided
  have hexponent : 2046 ≤ (Int.log 2 ((n : ℚ) / d) - 52 + 1074).toNat := by omega
  rw [hbits]
  refine Nat.min_eq_left ?_
  calc Double.infinityBits = 2046 * 2 ^ 52 + 2 ^ 52 := by decide
    _ ≤ _ := Nat.add_le_add (Nat.mul_le_mul_right _ hexponent) hquotient

/-- Numbers well below the greatest doubles do not round to infinity. -/
theorem roundedBits_lt {n d : Nat} (hd : 0 < d) (h : (n : ℚ) / d < 2 ^ (1023 : Int)) :
    roundedBits n d < Double.infinityBits := by
  rcases Nat.eq_zero_or_pos n with rfl | hn
  · exact (by decide : 0 < Double.infinityBits)
  have hq : (0 : ℚ) < (n : ℚ) / d := by positivity
  have hlog := (log_lt_iff hq 1023).mpr h
  set e := max (Int.log 2 ((n : ℚ) / d) - 52) (-1074) with he
  obtain ⟨t, b, hb, hdivided, hbits⟩ := roundedBits_eq hn hd he.symm
  have hquotient : roundQuotient t b ≤ 2 ^ 53 :=
    roundQuotient_le_of_grid hq (by omega) hb hdivided
  have hexponent : (e + 1074).toNat ≤ 2044 := by omega
  rw [hbits]
  refine lt_of_le_of_lt (Nat.min_le_right _ _) ?_
  calc (e + 1074).toNat * 2 ^ 52 + roundQuotient t b ≤ 2044 * 2 ^ 52 + 2 ^ 53 :=
        Nat.add_le_add (Nat.mul_le_mul_right _ hexponent) hquotient
    _ < Double.infinityBits := by decide

/-! ### Order -/

theorem roundedBits_le (n d : Nat) : roundedBits n d ≤ Double.infinityBits := by
  rw [roundedBits]
  split_ifs
  · exact Nat.zero_le _
  · exact Nat.min_le_left _ _

/-- Rounding keeps the order of numbers. -/
theorem roundedBits_mono {n d n' d' : Nat} (hd : 0 < d) (hd' : 0 < d')
    (h : (n : ℚ) / d ≤ (n' : ℚ) / d') : roundedBits n d ≤ roundedBits n' d' := by
  rcases Nat.eq_zero_or_pos n with rfl | hn
  · exact Nat.zero_le _
  have hq : (0 : ℚ) < (n : ℚ) / d := by positivity
  have hq' : (0 : ℚ) < (n' : ℚ) / d' := hq.trans_le h
  have hn' : 0 < n' := by
    rcases Nat.eq_zero_or_pos n' with rfl | hn'
    · simp at hq'
    · exact hn'
  have hlog : Int.log 2 ((n : ℚ) / d) ≤ Int.log 2 ((n' : ℚ) / d') := Int.log_mono_right hq h
  obtain ⟨t, b, hb, hdivided, hbits⟩ := roundedBits_eq hn hd rfl
  obtain ⟨t', b', hb', hdivided', hbits'⟩ := roundedBits_eq hn' hd' rfl
  set e := max (Int.log 2 ((n : ℚ) / d) - 52) (-1074) with he
  set e' := max (Int.log 2 ((n' : ℚ) / d') - 52) (-1074) with he'
  rw [hbits, hbits']
  refine min_le_min le_rfl ?_
  rcases (show e ≤ e' by omega).lt_or_eq with hlt | heq
  · -- The coarser grid begins where the finer one ends.
    have hquotient : roundQuotient t b ≤ 2 ^ 53 :=
      roundQuotient_le_of_grid hq (by omega) hb hdivided
    have hquotient' : 2 ^ 52 ≤ roundQuotient t' b' :=
      le_roundQuotient_of_grid hq' (by omega) hb' hdivided'
    have hexponent : (e + 1074).toNat + 1 ≤ (e' + 1074).toNat := by omega
    have hgrid := Nat.mul_le_mul_right (2 ^ 52) hexponent
    omega
  · rw [heq]
    refine Nat.add_le_add_left (roundQuotient_mono hb hb' ?_) _
    rw [hdivided, hdivided', heq]
    gcongr

end Number

/-! ### Doubles -/

/-- The fraction of an exact number. -/
theorem Exact.ratio_spec (e : Exact) :
    0 < e.ratio.2 ∧ (e.ratio.1 : ℚ) / e.ratio.2 = e.significand * 2 ^ e.exponent := by
  unfold ratio
  by_cases he : 0 ≤ e.exponent
  · obtain ⟨k, hk⟩ := Int.eq_ofNat_of_zero_le he
    rw [if_pos he, hk]
    refine ⟨Nat.one_pos, ?_⟩
    push_cast [Nat.pow_eq, Int.toNat_natCast, zpow_natCast]
    rw [div_one]
  · obtain ⟨k, hk⟩ : ∃ k : Nat, e.exponent = -(k : Int) := ⟨(-e.exponent).toNat, by omega⟩
    rw [if_neg he, hk]
    refine ⟨Nat.pow_pos (by decide), ?_⟩
    push_cast [Nat.pow_eq, neg_neg, Int.toNat_natCast, zpow_neg, zpow_natCast]
    rw [div_eq_mul_inv]

namespace Double

theorem magnitudeBits_lt (x : Double) : x.magnitudeBits < 2 ^ 63 :=
  Nat.mod_lt _ (by decide)

/-- A double is made of its sign and its magnitude. -/
theorem ofParts_self (x : Double) : ofParts x.negative x.magnitudeBits = x := by
  obtain ⟨bits⟩ := x
  have hlt : bits.toNat < 2 ^ 64 := bits.toNat_lt
  have hmod : bits.toNat % 2 ^ 63 =
      bits.toNat - if 2 ^ 63 ≤ bits.toNat then 2 ^ 63 else 0 := by
    split_ifs <;> omega
  simp only [ofParts, negative, magnitudeBits, Nat.pow_eq, hmod, decide_eq_true_eq]
  congr 1
  rw [Nat.add_sub_of_le (by split_ifs <;> omega)]
  exact UInt64.ofNat_toNat

theorem toNat_ofParts (sign : Bool) {magnitude : Nat} (h : magnitude < 2 ^ 63) :
    (ofParts sign magnitude).bits.toNat = (if sign then 2 ^ 63 else 0) + magnitude := by
  have hlt : (if sign then 2 ^ 63 else 0) + magnitude < 2 ^ 64 := by split_ifs <;> omega
  exact UInt64.toNat_ofNat_of_lt hlt

theorem negative_ofParts (sign : Bool) {magnitude : Nat} (h : magnitude < 2 ^ 63) :
    (ofParts sign magnitude).negative = sign := by
  rw [negative, toNat_ofParts sign h, Nat.pow_eq]
  rcases sign with _ | _
  · simpa using h
  · simp

theorem magnitudeBits_ofParts (sign : Bool) {magnitude : Nat} (h : magnitude < 2 ^ 63) :
    (ofParts sign magnitude).magnitudeBits = magnitude := by
  rw [magnitudeBits, toNat_ofParts sign h, Nat.pow_eq]
  split_ifs <;> omega

theorem isUndefined_of_isFinite {x : Double} (h : x.isFinite = true) : x.isUndefined = false := by
  have hlt : x.magnitudeBits < infinityBits := of_decide_eq_true h
  simpa [isUndefined] using hlt.le

theorem isFinite_ofParts (sign : Bool) {magnitude : Nat} (h : magnitude < infinityBits) :
    (ofParts sign magnitude).isFinite = true := by
  have hlt : magnitude < 2 ^ 63 := h.trans (by decide)
  rw [isFinite, magnitudeBits_ofParts sign hlt]
  exact decide_eq_true h

theorem isFinite_ofInteger (n : Int64) : (ofInteger n.toInt).isFinite = true := by
  refine isFinite_ofParts _ (Number.roundedBits_lt Nat.one_pos ?_)
  have hlow : -2 ^ 63 ≤ n.toInt := n.le_toInt
  have hhigh : n.toInt < 2 ^ 63 := n.toInt_lt
  have hle : n.toInt.natAbs ≤ 2 ^ 63 := by omega
  calc ((n.toInt.natAbs : ℚ) / (1 : Nat)) ≤ 2 ^ (63 : Int) := by
        rw [Nat.cast_one, div_one]
        exact_mod_cast hle
    _ < 2 ^ (1023 : Int) := zpow_lt_zpow_right₀ (by norm_num) (by decide)

/-- The magnitude of a negative double with the other sign is the double. -/
theorem neg_ofParts_magnitude {x : Double} (h : x.negative = true) :
    (ofParts false x.magnitudeBits).neg = x := by
  rw [neg, negative_ofParts _ x.magnitudeBits_lt, magnitudeBits_ofParts _ x.magnitudeBits_lt,
    Bool.not_false, ← h, ofParts_self]

/-- A finite double taken apart: its magnitude is the significand behind the exponent, which is as
small as possible. -/
theorem exact_spec {x : Double} {e : Exact} (h : x.exact? = some e) :
    e.negative = x.negative ∧ x.magnitudeBits < infinityBits ∧ -1074 ≤ e.exponent ∧
      e.significand < 2 ^ 53 ∧ (2 ^ 52 ≤ e.significand ∨ e.exponent = -1074) ∧
      (e.exponent + 1074).toNat * 2 ^ 52 + e.significand = x.magnitudeBits := by
  have hdivided := Nat.div_add_mod x.magnitudeBits (2 ^ 52)
  have hfraction := Nat.mod_lt x.magnitudeBits (show 0 < 2 ^ 52 by decide)
  unfold Double.exact? at h
  simp only [Nat.pow_eq, Bool.not_eq_true', ite_eq_iff, reduceCtorEq, and_false,
    false_or, Option.some.injEq] at h
  obtain ⟨hfinite, h⟩ := h
  have hfinite : x.isFinite = true := by simpa using hfinite
  refine ⟨?_, of_decide_eq_true hfinite, ?_⟩
  · rcases h with ⟨-, rfl⟩ | ⟨-, rfl⟩ <;> rfl
  · rcases h with ⟨hfield, rfl⟩ | ⟨hfield, rfl⟩ <;> dsimp only <;> omega

/-- A finite double is the nearest double of what it stands for. -/
theorem roundedBits_exact {x : Double} {e : Exact} (h : x.exact? = some e) :
    Number.roundedBits e.ratio.1 e.ratio.2 = x.magnitudeBits := by
  obtain ⟨-, hfinite, hexponent, hlt, hnormal, hbits⟩ := exact_spec h
  obtain ⟨hbottom, hvalue⟩ := e.ratio_spec
  rcases Nat.eq_zero_or_pos e.significand with hzero | hpos
  · have hn : e.ratio.1 = 0 := by
      unfold Exact.ratio
      split_ifs <;> simp [hzero]
    rw [hn]
    simp only [Number.roundedBits, if_true]
    omega
  · rw [Number.roundedBits_of_grid hbottom hpos hlt hexponent hnormal hvalue, hbits]
    omega

end Double

/-! ### The doubles of integers -/

namespace Number

theorem roundedBits_natAbs_mono {m n : Int} (h : m.natAbs ≤ n.natAbs) :
    roundedBits m.natAbs 1 ≤ roundedBits n.natAbs 1 :=
  roundedBits_mono Nat.one_pos Nat.one_pos (by gcongr)

theorem roundedBits_natAbs_pos {n : Int} (h : n ≠ 0) : 0 < roundedBits n.natAbs 1 :=
  calc 0 < roundedBits (1 : Int).natAbs 1 := by decide
    _ ≤ roundedBits n.natAbs 1 := roundedBits_natAbs_mono (by omega)

/-- The bits of a number with at most 53 digits in base two: nothing is cut off. -/
theorem roundedBits_of_short {n : Nat} (hn : 0 < n) (h : n < 2 ^ 53) : ∃ l ≤ 52,
    2 ^ 52 ≤ n * 2 ^ (52 - l) ∧ n * 2 ^ (52 - l) < 2 ^ 53 ∧
      roundedBits n 1 = (l + 1022) * 2 ^ 52 + n * 2 ^ (52 - l) := by
  have hl : Nat.log 2 n < 53 := Nat.log_lt_of_lt_pow hn.ne' h
  have hlow : 2 ^ 52 ≤ n * 2 ^ (52 - Nat.log 2 n) :=
    calc 2 ^ 52 = 2 ^ Nat.log 2 n * 2 ^ (52 - Nat.log 2 n) := by
          rw [← Nat.pow_add, Nat.add_sub_cancel' (by omega)]
      _ ≤ n * 2 ^ (52 - Nat.log 2 n) := Nat.mul_le_mul_right _ (Nat.pow_log_le_self 2 hn.ne')
  have hhigh : n * 2 ^ (52 - Nat.log 2 n) < 2 ^ 53 :=
    calc n * 2 ^ (52 - Nat.log 2 n) < 2 ^ (Nat.log 2 n + 1) * 2 ^ (52 - Nat.log 2 n) :=
          Nat.mul_lt_mul_of_pos_right (Nat.lt_pow_succ_log_self (by decide) n) (by positivity)
      _ = 2 ^ 53 := by
          rw [← Nat.pow_add]
          congr 1
          omega
  refine ⟨Nat.log 2 n, by omega, hlow, hhigh, ?_⟩
  have hvalue : (n : ℚ) / (1 : Nat) =
      (n * 2 ^ (52 - Nat.log 2 n) : Nat) * 2 ^ ((Nat.log 2 n : Int) - 52) := by
    have hexponent : (Nat.log 2 n : Int) - 52 = -((52 - Nat.log 2 n : Nat) : Int) := by omega
    rw [hexponent, zpow_neg, zpow_natCast]
    push_cast
    rw [mul_assoc, mul_inv_cancel₀ (by positivity), mul_one, div_one]
  rw [roundedBits_of_grid Nat.one_pos (by omega) hhigh (by omega) (.inl hlow) hvalue,
    Nat.min_eq_right]
  · omega
  · have hinfinity : Double.infinityBits = 2047 * 2 ^ 52 := rfl
    omega

theorem roundedBits_inj {m n : Nat} (hm : m < 2 ^ 53) (hn : n < 2 ^ 53)
    (h : roundedBits m 1 = roundedBits n 1) : m = n := by
  have hzero : roundedBits 0 1 = 0 := rfl
  rcases Nat.eq_zero_or_pos m with rfl | hmpos <;> rcases Nat.eq_zero_or_pos n with rfl | hnpos
  · rfl
  · obtain ⟨l, -, hlow, -, hbits⟩ := roundedBits_of_short hnpos hn
    omega
  · obtain ⟨l, -, hlow, -, hbits⟩ := roundedBits_of_short hmpos hm
    omega
  · obtain ⟨l, -, hlow, hhigh, hbits⟩ := roundedBits_of_short hmpos hm
    obtain ⟨l', -, hlow', hhigh', hbits'⟩ := roundedBits_of_short hnpos hn
    -- the significands are within one power of two, so the scales are the same
    obtain rfl : l = l' := by omega
    exact Nat.eq_of_mul_eq_mul_right (Nat.two_pow_pos (52 - l)) (by omega)

end Number

namespace Double

theorem rank_ofInteger (n : Int) : (ofInteger n).rank =
    if n < 0 then -(Number.roundedBits n.natAbs 1 : Int) else Number.roundedBits n.natAbs 1 := by
  have hlt : Number.roundedBits n.natAbs 1 < 2 ^ 63 :=
    (Number.roundedBits_le _ _).trans_lt (by decide)
  rw [ofInteger, ofRatio, rank, negative_ofParts _ hlt, magnitudeBits_ofParts _ hlt]
  simp only [decide_eq_true_eq]

theorem rank_ofInteger_neg {n : Int} : (ofInteger n).rank < 0 ↔ n < 0 := by
  rw [rank_ofInteger]
  split_ifs with hn
  · have hpos := Number.roundedBits_natAbs_pos hn.ne
    omega
  · omega

/-- Conversion keeps the order of integers. -/
theorem rank_ofInteger_mono {m n : Int} (h : m ≤ n) : (ofInteger m).rank ≤ (ofInteger n).rank := by
  rw [rank_ofInteger, rank_ofInteger]
  split_ifs with hm hn hn
  · have hbits := Number.roundedBits_natAbs_mono (show n.natAbs ≤ m.natAbs by omega)
    omega
  · omega
  · omega
  · have hbits := Number.roundedBits_natAbs_mono (show m.natAbs ≤ n.natAbs by omega)
    omega

theorem parts_of_rank_eq {m n : Int} (h : (ofInteger m).rank = (ofInteger n).rank) :
    (m < 0 ↔ n < 0) ∧ Number.roundedBits m.natAbs 1 = Number.roundedBits n.natAbs 1 := by
  have hsign : m < 0 ↔ n < 0 := by rw [← rank_ofInteger_neg, h, rank_ofInteger_neg]
  refine ⟨hsign, ?_⟩
  rw [rank_ofInteger, rank_ofInteger] at h
  split_ifs at h <;> omega

/-- The doubles of two integers are at the same place only if they are the same. -/
theorem ofInteger_eq_of_rank_eq {m n : Int} (h : (ofInteger m).rank = (ofInteger n).rank) :
    ofInteger m = ofInteger n := by
  obtain ⟨hsign, hbits⟩ := parts_of_rank_eq h
  rw [ofInteger, ofInteger, ofRatio, ofRatio, decide_eq_decide.mpr hsign, hbits]

/-- Integers with at most 53 digits in base two have different doubles. -/
theorem ofInteger_inj {m n : Int} (hm : m.natAbs < 2 ^ 53) (hn : n.natAbs < 2 ^ 53)
    (h : ofInteger m = ofInteger n) : m = n := by
  obtain ⟨hsign, hbits⟩ := parts_of_rank_eq (congrArg rank h)
  have hmagnitude := Number.roundedBits_inj hm hn hbits
  omega

theorem order?_ofInteger (m n : Int64) : (ofInteger m.toInt).order? (ofInteger n.toInt) =
    some (compare (ofInteger m.toInt).rank (ofInteger n.toInt).rank) := by
  rw [order?, isUndefined_of_isFinite (isFinite_ofInteger m),
    isUndefined_of_isFinite (isFinite_ofInteger n)]
  rfl

end Double

end Covenant
