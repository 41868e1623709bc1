import Covenant.Proofs.Integers
import Covenant.Proofs.Rounding
import Covenant.Run.Builtin
import Mathlib.Data.Finset.Max

/-!
# Greatest and least arguments

`max` and `min` compare their arguments as doubles, and the operators compare integers exactly.
Conversion to doubles keeps the order of integers but does not tell all of them apart beyond
`2 ^ 53`, so that an argument as good as any other is found in every order of the arguments exactly
if no other argument has the double of the best.

## Main definitions

* `Builtin.AsGood`, `Builtin.Beats` : the order of the operators, and that of the doubles.
* `Builtin.Extremal` : `max` and `min` find a greatest and a least argument.

## Main results

* `Builtin.exists_extreme` : no argument beats the one that is returned.
* `Builtin.extremal_iff` : the arguments for which the extremes are found in every order.
* `Builtin.extremal_of_small` : those below `2 ^ 53` are among them.
-/

namespace Covenant

namespace Builtin

variable {better : Ordering} {l m n : Int64} {ns : List Int64}

/-! ### The wanted order -/

/-- The first integer is no worse than the second in the wanted order. -/
def AsGood (better : Ordering) (m n : Int64) : Prop :=
  compare m.toInt n.toInt ≠ better.swap

/-- The double of the first integer is better than that of the second in the wanted order. -/
def Beats (better : Ordering) (m n : Int64) : Prop :=
  compare (Double.ofInteger m.toInt).rank (Double.ofInteger n.toInt).rank = better

theorem asGood_gt : AsGood .gt m n ↔ n ≤ m := by
  rw [Int64.le_iff_toInt_le, ← not_lt]
  exact not_congr compare_lt_iff_lt

theorem asGood_lt : AsGood .lt m n ↔ m ≤ n := by
  rw [Int64.le_iff_toInt_le, ← not_lt]
  exact not_congr compare_gt_iff_gt

theorem beats_gt : Beats .gt m n ↔
    (Double.ofInteger n.toInt).rank < (Double.ofInteger m.toInt).rank :=
  compare_gt_iff_gt

theorem beats_lt : Beats .lt m n ↔
    (Double.ofInteger m.toInt).rank < (Double.ofInteger n.toInt).rank :=
  compare_lt_iff_lt

theorem AsGood.antisymm (hbetter : better ≠ .eq) (h : AsGood better m n) (h' : AsGood better n m) :
    m = n := by
  cases better with
  | lt => exact Int64.le_antisymm (asGood_lt.mp h) (asGood_lt.mp h')
  | gt => exact Int64.le_antisymm (asGood_gt.mp h') (asGood_gt.mp h)
  | eq => exact absurd rfl hbetter

theorem exists_asGood (hbetter : better ≠ .eq) (hne : ns ≠ []) :
    ∃ n ∈ ns, ∀ l ∈ ns, AsGood better n l := by
  have hnonempty : ns.toFinset.Nonempty := List.toFinset_nonempty_iff ns |>.mpr hne
  cases better with
  | lt =>
    obtain ⟨n, hn, hleast⟩ := Finset.exists_min_image ns.toFinset Int64.toInt hnonempty
    exact ⟨n, List.mem_toFinset.mp hn, fun l hl =>
      asGood_lt.mpr (Int64.le_iff_toInt_le.mpr (hleast l (List.mem_toFinset.mpr hl)))⟩
  | gt =>
    obtain ⟨n, hn, hgreatest⟩ := Finset.exists_max_image ns.toFinset Int64.toInt hnonempty
    exact ⟨n, List.mem_toFinset.mp hn, fun l hl =>
      asGood_gt.mpr (Int64.le_iff_toInt_le.mpr (hgreatest l (List.mem_toFinset.mpr hl)))⟩
  | eq => exact absurd rfl hbetter

/-- The order of integers is kept by their doubles. -/
theorem AsGood.not_beats (hbetter : better ≠ .eq) (h : AsGood better m n) :
    ¬Beats better n m := by
  cases better with
  | lt =>
    rw [beats_lt, not_lt]
    exact Double.rank_ofInteger_mono (Int64.le_iff_toInt_le.mp (asGood_lt.mp h))
  | gt =>
    rw [beats_gt, not_lt]
    exact Double.rank_ofInteger_mono (Int64.le_iff_toInt_le.mp (asGood_gt.mp h))
  | eq => exact absurd rfl hbetter

/-- Integers of which neither beats the other have one double. -/
theorem ofInteger_eq_of_not_beats (hbetter : better ≠ .eq) (h : ¬Beats better m n)
    (h' : ¬Beats better n m) : Double.ofInteger m.toInt = Double.ofInteger n.toInt := by
  refine Double.ofInteger_eq_of_rank_eq ?_
  cases better with
  | lt => exact le_antisymm (not_lt.mp (mt beats_lt.mpr h')) (not_lt.mp (mt beats_lt.mpr h))
  | gt => exact le_antisymm (not_lt.mp (mt beats_gt.mpr h)) (not_lt.mp (mt beats_gt.mpr h'))
  | eq => exact absurd rfl hbetter

theorem Beats.trans (h : Beats better l m) (h' : Beats better m n) : Beats better l n := by
  cases better with
  | lt => exact beats_lt.mpr ((beats_lt.mp h).trans (beats_lt.mp h'))
  | gt => exact beats_gt.mpr ((beats_gt.mp h').trans (beats_gt.mp h))
  | eq => exact compare_eq_iff_eq.mpr ((compare_eq_iff_eq.mp h).trans (compare_eq_iff_eq.mp h'))

/-- What beats the best so far beats what does not. -/
theorem Beats.of_not (hbetter : better ≠ .eq) (h : Beats better l m) (h' : ¬Beats better n m) :
    Beats better l n := by
  cases better with
  | lt => exact beats_lt.mpr ((beats_lt.mp h).trans_le (not_lt.mp (mt beats_lt.mpr h')))
  | gt => exact beats_gt.mpr ((not_lt.mp (mt beats_gt.mpr h')).trans_lt (beats_gt.mp h))
  | eq => exact absurd rfl hbetter

/-! ### The argument that is returned -/

/-- The best argument so far. -/
def best (n : Int64) : Option (Value × Double) :=
  some (.integer n, Double.ofInteger n.toInt)

theorem extreme_of_beats {b : Builtin} {kept : Int64} {rest : List Value}
    (h : Beats better n kept) :
    extreme b better (best kept) (.integer n :: rest) = extreme b better (best n) rest := by
  have horder := Double.order?_ofInteger n kept
  rw [h] at horder
  exact if_pos horder

theorem extreme_of_not_beats {b : Builtin} {kept : Int64} {rest : List Value}
    (h : ¬Beats better n kept) :
    extreme b better (best kept) (.integer n :: rest) = extreme b better (best kept) rest := by
  refine if_neg fun horder => h ?_
  rw [Double.order?_ofInteger] at horder
  exact Option.some.inj horder

/-- No argument beats the one that is returned. -/
theorem exists_extreme_best (b : Builtin) (hbetter : better ≠ .eq) (kept : Int64)
    (rest : List Int64) :
    ∃ m ∈ kept :: rest, extreme b better (best kept) (rest.map .integer) = .ok (.integer m) ∧
      ∀ n ∈ kept :: rest, ¬Beats better n m := by
  induction rest generalizing kept with
  | nil =>
    refine ⟨kept, List.mem_cons_self, rfl, List.forall_mem_singleton.mpr fun h => hbetter ?_⟩
    exact h.symm.trans (compare_eq_iff_eq.mpr rfl)
  | cons n rest ih =>
    rw [List.map_cons]
    by_cases hbeats : Beats better n kept
    · obtain ⟨m, hm, hextreme, hbest⟩ := ih n
      rw [extreme_of_beats hbeats]
      refine ⟨m, List.mem_cons_of_mem _ hm, hextreme, List.forall_mem_cons.mpr ⟨?_, hbest⟩⟩
      exact fun h => hbest n List.mem_cons_self (hbeats.trans h)
    · obtain ⟨m, hm, hextreme, hbest⟩ := ih kept
      obtain ⟨hkept, hrest⟩ := List.forall_mem_cons.mp hbest
      rw [extreme_of_not_beats hbeats]
      refine ⟨m, by grind, hextreme, ?_⟩
      exact List.forall_mem_cons.mpr ⟨hkept, List.forall_mem_cons.mpr
        ⟨fun h => hbeats (h.of_not hbetter hkept), hrest⟩⟩

theorem exists_extreme (b : Builtin) (hbetter : better ≠ .eq) (hne : ns ≠ []) :
    ∃ m ∈ ns, extreme b better none (ns.map .integer) = .ok (.integer m) ∧
      ∀ n ∈ ns, ¬Beats better n m := by
  obtain ⟨kept, rest, rfl⟩ := List.exists_cons_of_ne_nil hne
  exact exists_extreme_best b hbetter kept rest

/-- If none of the others beats the first argument, it is returned. -/
theorem extreme_of_first (b : Builtin) {rest : List Int64} (h : ∀ n ∈ rest, ¬Beats better n m) :
    extreme b better none ((m :: rest).map .integer) = .ok (.integer m) := by
  change extreme b better (best m) (rest.map .integer) = _
  induction rest with
  | nil => rfl
  | cons n rest ih =>
    obtain ⟨hn, hrest⟩ := List.forall_mem_cons.mp h
    rw [List.map_cons, extreme_of_not_beats hn, ih hrest]

/-- No other argument has the double of one that is as good as all of them. -/
def Apart (better : Ordering) (ns : List Int64) : Prop :=
  ∀ m ∈ ns, ∀ n ∈ ns, (∀ l ∈ ns, AsGood better n l) →
    Double.ofInteger m.toInt = Double.ofInteger n.toInt → m = n

theorem exists_extreme_asGood (b : Builtin) (hbetter : better ≠ .eq) (hne : ns ≠ [])
    (hapart : Apart better ns) :
    ∃ m ∈ ns, extreme b better none (ns.map .integer) = .ok (.integer m) ∧
      ∀ n ∈ ns, AsGood better m n := by
  obtain ⟨m, hm, hextreme, hunbeaten⟩ := exists_extreme b hbetter hne
  obtain ⟨n, hn, hbest⟩ := exists_asGood hbetter hne
  have heq := ofInteger_eq_of_not_beats hbetter ((hbest m hm).not_beats hbetter) (hunbeaten n hn)
  obtain rfl := hapart m hm n hn hbest heq
  exact ⟨m, hm, hextreme, hbest⟩

/-- In every order of the arguments one that is as good as all of them is returned, exactly if no
other has its double: with that one in front, the other would be passed over. -/
theorem extreme_asGood_iff (b : Builtin) (hbetter : better ≠ .eq) (hne : ns ≠ []) :
    (∀ ns' : List Int64, ns'.Perm ns → ∃ m ∈ ns',
        extreme b better none (ns'.map .integer) = .ok (.integer m) ∧
          ∀ n ∈ ns', AsGood better m n) ↔ Apart better ns := by
  constructor
  · intro h m hm n hn hbest heq
    have hrest : ∀ l ∈ ns.erase m, ¬Beats better l m := by
      intro l hl
      rw [Beats, heq]
      exact (hbest l (List.mem_of_mem_erase hl)).not_beats hbetter
    obtain ⟨m', -, hextreme, hgood⟩ := h (m :: ns.erase m) (List.perm_cons_erase hm).symm
    obtain rfl : m = m' :=
      Value.integer.inj (Except.ok.inj ((extreme_of_first b hrest).symm.trans hextreme))
    exact (hgood n ((List.perm_cons_erase hm).subset hn)).antisymm hbetter (hbest m hm)
  · intro hapart ns' hperm
    have hne' : ns' ≠ [] := by
      rintro rfl
      exact hne hperm.nil_eq.symm
    refine exists_extreme_asGood b hbetter hne' fun m hm n hn hbest => ?_
    exact hapart m (hperm.subset hm) n (hperm.subset hn) fun l hl => hbest l (hperm.symm.subset hl)

/-- With these integers as arguments, `max` returns one of them that is no less than any, and `min`
one that is no greater than any, as the operators compare them. -/
def Extremal (ns : List Int64) (clock : String) : Prop :=
  (∃ m ∈ ns, max.apply clock (ns.map .integer) = .ok (.integer m) ∧
    ∀ n ∈ ns, BinaryOp.greaterEqual.apply (.integer m) (.integer n) = .ok (.boolean true)) ∧
  ∃ m ∈ ns, min.apply clock (ns.map .integer) = .ok (.integer m) ∧
    ∀ n ∈ ns, BinaryOp.lessEqual.apply (.integer m) (.integer n) = .ok (.boolean true)

theorem extremal_iff_extreme (clock : String) : Extremal ns clock ↔
    (∃ m ∈ ns, extreme max .gt none (ns.map .integer) = .ok (.integer m) ∧
      ∀ n ∈ ns, AsGood .gt m n) ∧
    ∃ m ∈ ns, extreme min .lt none (ns.map .integer) = .ok (.integer m) ∧
      ∀ n ∈ ns, AsGood .lt m n := by
  simp only [Extremal, BinaryOp.greaterEqual_integer, BinaryOp.lessEqual_integer,
    asGood_gt, asGood_lt, Except.ok.injEq, Value.boolean.injEq, decide_eq_true_eq]
  rfl

/-- Integers below `2 ^ 53` are all told apart. -/
theorem extremal_of_small (hne : ns ≠ []) (hsmall : ∀ n ∈ ns, n.toInt.natAbs < 2 ^ 53)
    (clock : String) : Extremal ns clock := by
  have hapart (better : Ordering) : Apart better ns := fun m hm n hn _ heq =>
    Int64.toInt_inj.mp (Double.ofInteger_inj (hsmall m hm) (hsmall n hn) heq)
  exact (extremal_iff_extreme clock).mpr
    ⟨exists_extreme_asGood max (by decide) hne (hapart .gt),
      exists_extreme_asGood min (by decide) hne (hapart .lt)⟩

/-- The greatest and the least of integers are found in every order of them, exactly if no other
converts to the double of the greatest and none to that of the least. -/
theorem extremal_iff (hne : ns ≠ []) (clock : String) :
    (∀ ns' : List Int64, ns'.Perm ns → Extremal ns' clock) ↔
      ∀ m ∈ ns, ∀ n ∈ ns, ((∀ l ∈ ns, l ≤ n) ∨ ∀ l ∈ ns, n ≤ l) →
        Double.ofInteger m.toInt = Double.ofInteger n.toInt → m = n := by
  have hmax := extreme_asGood_iff max (show Ordering.gt ≠ .eq by decide) hne
  have hmin := extreme_asGood_iff min (show Ordering.lt ≠ .eq by decide) hne
  simp only [Apart, asGood_gt, asGood_lt] at hmax hmin
  simp only [extremal_iff_extreme, asGood_gt, asGood_lt, forall_and, hmax, hmin]
  exact ⟨fun h m hm n hn hbest => hbest.elim (h.1 m hm n hn) (h.2 m hm n hn),
    fun h => ⟨fun m hm n hn hbest => h m hm n hn (.inl hbest),
      fun m hm n hn hbest => h m hm n hn (.inr hbest)⟩⟩

theorem extremal_iff_apart :
    [9007199254740993, -9007199254740993, 9007199254740990] ≠ ([] : List Int64) ∧
      ∀ ns', ns'.Perm [9007199254740993, -9007199254740993, 9007199254740990] →
        Extremal ns' "" := by
  have hdistinct : ([9007199254740993, -9007199254740993, 9007199254740990].map fun n : Int64 =>
      Double.ofInteger n.toInt).Nodup := by
    decide +kernel
  exact ⟨by decide, (extremal_iff (by decide) "").mpr fun m hm n hn _ heq =>
    List.inj_on_of_nodup_map hdistinct hm hn heq⟩

/-- Two neighbours beyond `2 ^ 53` have one double, so `max` returns the first, which is less. -/
theorem not_extremal_neighbours :
    max.apply "" [.integer 9007199254740992, .integer 9007199254740993] =
        .ok (.integer 9007199254740992) ∧
      BinaryOp.greaterEqual.apply (.integer 9007199254740992) (.integer 9007199254740993) =
        .ok (.boolean false) ∧
      ¬Extremal [9007199254740992, 9007199254740993] "" := by
  have hunbeaten : ¬Beats .gt 9007199254740993 9007199254740992 := by
    rw [beats_gt]
    decide +kernel
  have hmax := extreme_of_first max (List.forall_mem_singleton.mpr hunbeaten)
  have hless : ¬(9007199254740993 : Int64) ≤ 9007199254740992 := by decide
  refine ⟨hmax, by rw [BinaryOp.greaterEqual_integer, decide_eq_false hless], ?_⟩
  rintro ⟨⟨m, -, hextreme, hgreatest⟩, -⟩
  obtain rfl : 9007199254740992 = m :=
    Value.integer.inj (Except.ok.inj (hmax.symm.trans hextreme))
  have hflag := hgreatest 9007199254740993 (by simp)
  rw [BinaryOp.greaterEqual_integer, decide_eq_false hless] at hflag
  cases hflag

end Builtin

end Covenant
