import Mathlib.Tactic.NormNum
import JsonSelect.Proofs.Evaluation.DepthFirst
import JsonSelect.Proofs.Literal.TrueOrder

/-!
# Comparisons with zero

On which side of zero a number of a document is found depends on its decimal, and the decimals of
very small numbers are zero: they have no place before the 29th after the point.  Comparisons
respect the order of values, so the numbers that are not told apart from zero are those below a
certain magnitude.  Four comparisons find it, those of the two neighbouring magnitudes with both
signs (`order?_neighbours`).  It is about `9.44e-29` (`leastScaled_bounds`).

Below that magnitude the comparison of decimals is not exact, and nothing falls back on floating
point, since both sides have decimals: `1e-30` equals zero (`order?_zero_tiny`).
-/

namespace JsonSelect

/-- The code of the smallest magnitude that is told apart from zero. -/
def leastScaledCode : Nat :=
  4187765180163709635

/-- The smallest magnitude of a floating-point number that is told apart from zero. -/
def leastScaled : ℚ :=
  magnitudeOfCode leastScaledCode

/-- The least number that is not compared as zero is about 9.44e-29. -/
theorem leastScaled_bounds : 9.44e-29 < leastScaled ∧ leastScaled < 9.45e-29 := by
  have hmagnitude : leastScaled = (8424725963889347 : Nat) * 2 ^ (-146 : Int) := rfl
  rw [hmagnitude]
  norm_num

theorem leastScaled_pos : 0 < leastScaled :=
  lt_trans (by norm_num) leastScaled_bounds.1

namespace CommonNumber

/-- The numbers with the smallest magnitude that is told apart from zero. -/
def firstScaled (negative : Bool) : CommonNumber :=
  float ⟨negative, leastScaledCode, by decide⟩

/-- The numbers with the magnitude before that. -/
def lastUnscaled (negative : Bool) : CommonNumber :=
  float ⟨negative, leastScaledCode - 1, by decide⟩

/-- The floats at the threshold on both sides of zero, and those just below it. -/
theorem order?_neighbours :
    (Literal.integer 0).order? (.number (firstScaled false).number) = some .gt ∧
      (Literal.integer 0).order? (.number (firstScaled true).number) = some .lt ∧
      (Literal.integer 0).order? (.number (lastUnscaled false).number) = some .eq ∧
      (Literal.integer 0).order? (.number (lastUnscaled true).number) = some .eq := by
  decide +kernel

/-- On which side of zero a number is found, its place is relative to that of zero. -/
theorem compare_rank_zero {b : CommonNumber} {order : Ordering}
    (h : (Literal.integer 0).order? (.number b.number) = some order) :
    Ord.compare b.quantity.rank (integer 0).quantity.rank = order := by
  have hrank := order?_literal b.number (integer 0)
  rw [ofNumber_number, ofNumber_number] at hrank
  exact Option.some.inj (hrank.symm.trans h)

/-- All zeros have the same place. -/
theorem rank_of_value_eq_zero {zero : CommonNumber} (hzero : zero.number.value = 0) :
    zero.quantity.rank = (integer 0).quantity.rank := by
  have hvalue : (integer 0).number.value = 0 := Int.cast_zero
  exact (rank_le_rank (hzero.trans hvalue.symm).le).antisymm
    (rank_le_rank (hvalue.trans hzero.symm).le)

end CommonNumber

/-- No number of a document lies between the two neighbouring magnitudes. -/
theorem abs_value_le_of_lt_leastScaled {a : Number} (h : |a.value| < leastScaled) :
    |a.value| ≤ magnitudeOfCode (leastScaledCode - 1) := by
  cases a with
  | float x =>
    have habs : |(Number.float x).value| = magnitudeOfCode x.code :=
      (CommonNumber.float x).abs_value_number
    rw [habs] at h ⊢
    have hcode : x.code < leastScaledCode := strictMono_magnitudeOfCode.lt_iff_lt.mp h
    exact strictMono_magnitudeOfCode.monotone (Nat.le_sub_one_of_lt hcode)
  | integer value range =>
    have hsmall : |(value : ℚ)| < 1 := h.trans (leastScaled_bounds.2.trans (by norm_num))
    have hzero : value = 0 := Int.abs_lt_one_iff.mp (by exact_mod_cast hsmall)
    rw [Number.value, hzero, Int.cast_zero, abs_zero]
    exact magnitudeOfCode_nonneg _

section

variable {zero : CommonNumber} (hzero : zero.number.value = 0) {a : Number}

include hzero

/-- A comparison with zero is that of two places. -/
theorem order?_zero_eq {c : CommonNumber} (hc : a.ComparedAs c) :
    zero.literal.order? (.number a) =
      some (compare c.quantity.rank (CommonNumber.integer 0).quantity.rank) := by
  rw [CommonNumber.order?_literal, CommonNumber.ofNumber_number, hc.quantity_eq,
    CommonNumber.rank_of_value_eq_zero hzero]

/-- From the threshold on, zero is less than the number. -/
theorem order?_zero_of_leastScaled_le (h : leastScaled ≤ a.value) :
    zero.literal.order? (.number a) = some .gt := by
  obtain ⟨c, hc⟩ := a.exists_comparedAs
  have hfirst := CommonNumber.compare_rank_zero CommonNumber.order?_neighbours.1
  have hrank : (CommonNumber.firstScaled false).quantity.rank ≤ c.quantity.rank :=
    CommonNumber.rank_le_rank (hc.le_of_ge _ h)
  rw [order?_zero_eq hzero hc, Option.some_inj, compare_gt_iff_gt]
  exact (compare_gt_iff_gt.mp hfirst).trans_le hrank

/-- Down from the threshold on the other side, zero is greater than the number. -/
theorem order?_zero_of_le_neg_leastScaled (h : a.value ≤ -leastScaled) :
    zero.literal.order? (.number a) = some .lt := by
  obtain ⟨c, hc⟩ := a.exists_comparedAs
  have hfirst := CommonNumber.compare_rank_zero CommonNumber.order?_neighbours.2.1
  have hrank : c.quantity.rank ≤ (CommonNumber.firstScaled true).quantity.rank :=
    CommonNumber.rank_le_rank (hc.le_of_le _ h)
  rw [order?_zero_eq hzero hc, Option.some_inj, compare_lt_iff_lt]
  exact hrank.trans_lt (compare_lt_iff_lt.mp hfirst)

/-- Between both thresholds, zero equals the number. -/
theorem order?_zero_of_lt_leastScaled (h : |a.value| < leastScaled) :
    zero.literal.order? (.number a) = some .eq := by
  obtain ⟨c, hc⟩ := a.exists_comparedAs
  have hpos := CommonNumber.compare_rank_zero CommonNumber.order?_neighbours.2.2.1
  have hneg := CommonNumber.compare_rank_zero CommonNumber.order?_neighbours.2.2.2
  obtain ⟨hlow, hhigh⟩ := abs_le.mp (abs_value_le_of_lt_leastScaled h)
  have hle : c.quantity.rank ≤ (CommonNumber.lastUnscaled false).quantity.rank :=
    CommonNumber.rank_le_rank (hc.le_of_le _ hhigh)
  have hge : (CommonNumber.lastUnscaled true).quantity.rank ≤ c.quantity.rank :=
    CommonNumber.rank_le_rank (hc.le_of_ge _ hlow)
  rw [order?_zero_eq hzero hc, Option.some_inj, compare_eq_iff_eq]
  exact (hle.trans_eq (compare_eq_iff_eq.mp hpos)).antisymm
    ((compare_eq_iff_eq.mp hneg).ge.trans hge)

end

/-- A condition on the child itself compares it with the literal. -/
theorem holds_comparison_nil (operator : Operator) (literal : Literal) (a : Number) :
    (Condition.comparison [] operator literal).holds (.number a) =
      operator.accepts (literal.order? (.number a)) := by
  have htest : (Condition.comparison [] operator literal).satisfied (.number a) =
      (operator.acceptsNode (some literal) (.number a) || false) := rfl
  rw [Condition.holds, Condition.test_snd, htest, Bool.or_false]
  cases operator <;> rfl

/-- Numbers of documents are told apart from zero from a certain magnitude on.  From there on the
order is that of the exact values, below it all numbers equal zero, and a condition on the sign of a
child holds accordingly. -/
theorem order?_zero {zero : CommonNumber} (hzero : zero.number.value = 0) (a : Number) :
    (zero.literal.order? (.number a) =
      some (if |a.value| < leastScaled then .eq else compare a.value 0)) ∧
    ((Condition.comparison [] .less zero.literal).holds (.number a) =
      decide (a.value ≤ -leastScaled)) ∧
    ((Condition.comparison [] .equal zero.literal).holds (.number a) =
      decide (|a.value| < leastScaled)) ∧
    (Condition.comparison [] .greater zero.literal).holds (.number a) =
      decide (leastScaled ≤ a.value) := by
  have hpos := leastScaled_pos
  simp only [holds_comparison_nil]
  by_cases hsmall : |a.value| < leastScaled
  · obtain ⟨hlow, hhigh⟩ := abs_lt.mp hsmall
    rw [order?_zero_of_lt_leastScaled hzero hsmall, if_pos hsmall]
    simp [Operator.accepts, hsmall, hlow, hhigh]
  · rcases le_abs'.mp (not_lt.mp hsmall) with hneg | hge
    · have hlt : a.value < 0 := hneg.trans_lt (neg_neg_of_pos hpos)
      rw [order?_zero_of_le_neg_leastScaled hzero hneg, if_neg hsmall,
        compare_lt_iff_lt.mpr hlt]
      simp [Operator.accepts, hsmall, hneg, hlt.trans hpos]
    · have hgt : 0 < a.value := hpos.trans_le hge
      rw [order?_zero_of_leastScaled_le hzero hge, if_neg hsmall, compare_gt_iff_gt.mpr hgt]
      simp [Operator.accepts, hsmall, hge, (neg_neg_of_pos hpos).trans hgt]

/-- The largest negative number that is told apart from zero, compared with the negative zero. -/
theorem order?_zero_negative :
    let zero : CommonNumber := .float ⟨true, 0, by decide⟩
    let a : Number := (CommonNumber.firstScaled true).number
    zero.number.value = 0 ∧ zero.literal.order? (.number a) = some .lt ∧
      (Condition.comparison [] .less zero.literal).holds (.number a) = true := by
  intro zero a
  have hzero : zero.number.value = 0 := by
    have hvalue : zero.number.value = -magnitudeOfCode 0 := rfl
    rw [hvalue, magnitudeOfCode_zero, neg_zero]
  have hpos := leastScaled_pos
  have ha : a.value = -leastScaled := rfl
  obtain ⟨horder, hless, -⟩ := order?_zero hzero a
  have hnot : ¬|a.value| < leastScaled := by
    rw [ha, abs_neg, abs_of_pos hpos]
    exact lt_irrefl _
  have hlt : compare a.value 0 = .lt := by
    rw [ha, compare_lt_iff_lt]
    exact neg_neg_of_pos hpos
  refine ⟨hzero, ?_, ?_⟩
  · rw [horder, if_neg hnot, hlt]
  · rw [hless, ha]
    exact decide_eq_true le_rfl

/-- The number nearest to `1e-30` is positive and has a decimal, and is found to equal zero. -/
theorem order?_zero_tiny :
    let tiny : FiniteFloat := ⟨false, 4158027847206421152, by decide⟩
    0 < tiny.value ∧ ScaledDecimal.ofFiniteFloat tiny = some ⟨false, 0, 0⟩ ∧
      (Literal.integer 0).order? (.number (.float tiny)) = some .eq := by
  intro tiny
  have hvalue : tiny.value = magnitudeOfCode 4158027847206421152 := rfl
  refine ⟨?_, by decide +kernel, by decide +kernel⟩
  rw [hvalue, ← magnitudeOfCode_zero]
  exact strictMono_magnitudeOfCode (by decide)

end JsonSelect
