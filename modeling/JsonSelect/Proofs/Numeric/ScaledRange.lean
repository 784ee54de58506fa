import JsonSelect.Numeric.ScaledDecimal
import JsonSelect.Proofs.Numeric.Nearest

/-!
# Which numbers have a decimal of bounded size

A floating-point number has a decimal exactly if its magnitude is below `2 ^ 96`, the bound of the
coefficients (`isSome_ofFiniteFloat_iff`).  Where the power of two is negative, all steps of the
conversion succeed.  Where it is not, the coefficient is doubled until the power is worked off or
the coefficient has no room left, and then there is no result: the branch that divides by five
is never reached.

The floating-point number nearest to a 64-bit whole number, signed or not, is far below that bound
(`exists_ofInt_eq_finite`).
-/

namespace JsonSelect

namespace ScaledDecimal

/-- The code of `2 ^ 96`, the smallest magnitude without a decimal. -/
def unscaledCode : Nat :=
  1119 * codesPerBinade

/-! ### The steps of the conversion -/

/-- The end of the conversion succeeds where no power of ten is left to be multiplied out. -/
theorem isSome_finish_of_exponent_le {negative : Bool} {p : Interim} (h : p.exponent ≤ 0) :
    (finish negative p).isSome = true := by
  rw [finish, Int.toNat_of_nonpos h]
  rfl

/-- A negative power of two adds at most one to the power of ten with each step. -/
theorem exponent_clearNegative_le (steps : Nat) (p : Interim) :
    (clearNegative steps p).exponent ≤ p.exponent + steps := by
  induction steps generalizing p with
  | zero => exact Int.le_of_eq (Int.add_zero _).symm
  | succ steps ih =>
    obtain ⟨m, e⟩ := p
    rw [clearNegative]
    split
    · have h := ih ⟨m / 2, e + 1⟩
      simp only at h ⊢
      omega
    · split
      · have h := ih ⟨5 * m, e⟩
        simp only at h ⊢
        omega
      · have h := ih ⟨m / 2, e + 1⟩
        simp only at h ⊢
        omega

/-- A coefficient with room for `room` more bits is doubled that often at most. -/
theorem clearPositive_eq {steps m : Nat} (room : Nat) (hroom : room ≤ 95)
    (hlow : 2 ^ (95 - room) ≤ m) (hhigh : m < 2 ^ (96 - room)) :
    clearPositive steps ⟨m, steps⟩ =
      if steps ≤ room then some ⟨m * 2 ^ steps, 0⟩ else none := by
  induction steps generalizing room m with
  | zero => simp [clearPositive]
  | succ steps ih =>
    rw [clearPositive]
    cases room with
    | zero =>
      have hfull : ¬ m < 1 <<< 95 := by
        rw [Nat.one_shiftLeft]
        exact Nat.not_lt.mpr hlow
      rw [if_neg hfull, if_pos (by push_cast; omega), if_neg (by omega)]
    | succ room =>
      have hspace : m < 1 <<< 95 := by
        rw [Nat.one_shiftLeft]
        exact Nat.lt_of_lt_of_le hhigh (Nat.pow_le_pow_right (by decide) (by omega))
      have hlow' : 2 ^ (95 - room) ≤ 2 * m := by
        rw [show 95 - room = 95 - (room + 1) + 1 by omega, Nat.pow_succ']
        omega
      have hhigh' : 2 * m < 2 ^ (96 - room) := by
        rw [show 96 - room = 96 - (room + 1) + 1 by omega, Nat.pow_succ']
        omega
      have hexponent : ((steps + 1 : Nat) : Int) - 1 = steps := by omega
      have hdouble : 2 * m * 2 ^ steps = m * 2 ^ (steps + 1) := by
        rw [Nat.pow_succ', Nat.mul_comm 2 m, Nat.mul_assoc]
      rw [if_pos hspace, hexponent, ih room (by omega) hlow' hhigh', hdouble]
      simp only [Nat.add_le_add_iff_right]

/-! ### Finite numbers -/

/-- The significand of a number with a power of two that is not negative has 53 bits. -/
theorem significand_bounds {x : FiniteFloat} (h : 0 ≤ x.exponent) :
    2 ^ 52 ≤ x.significand ∧ x.significand < 2 ^ 53 := by
  have hcode : ¬ x.code < codesPerBinade := by
    intro hsmall
    have hzero : x.code / codesPerBinade = 0 := Nat.div_eq_of_lt hsmall
    rw [FiniteFloat.exponent, hzero] at h
    omega
  have hmod : x.code % codesPerBinade < codesPerBinade := Nat.mod_lt _ (by decide)
  rw [FiniteFloat.significand, if_neg hcode]
  simp only [codesPerBinade, Nat.one_shiftLeft] at hmod ⊢
  omega

/-- The numbers with a decimal are those below `2 ^ 96`. -/
theorem isSome_ofFiniteFloat_iff (x : FiniteFloat) :
    (ofFiniteFloat x).isSome = true ↔ x.code < unscaledCode := by
  have hexponent : x.exponent = ((max (x.code / codesPerBinade) 1 : Nat) : Int) - 1075 := rfl
  have hbound : x.code < unscaledCode ↔ x.code / codesPerBinade < 1119 :=
    (Nat.div_lt_iff_lt_mul (by decide)).symm
  rw [hbound, ofFiniteFloat]
  split
  · next hzero =>
    rw [hzero, Nat.zero_div]
    simp
  · dsimp only
    split
    · next hnegative =>
      have hcleared := exponent_clearNegative_le (-x.exponent).toNat ⟨x.significand, x.exponent⟩
      have hsome : (finish x.negative (clearNegative (-x.exponent).toNat
          ⟨x.significand, x.exponent⟩)).isSome = true := by
        apply isSome_finish_of_exponent_le
        simp only at hcleared
        omega
      simp only [hsome, true_iff]
      omega
    · next hnegative =>
      have hpositive : 0 ≤ x.exponent := Int.not_lt.mp hnegative
      obtain ⟨hlow, hhigh⟩ := significand_bounds hpositive
      have hstart : (⟨x.significand, x.exponent⟩ : Interim) =
          ⟨x.significand, (x.exponent.toNat : Int)⟩ := by
        rw [Int.toNat_of_nonneg hpositive]
      rw [hstart, clearPositive_eq 43 (by decide) hlow hhigh]
      split
      · have hsome : (finish x.negative ⟨x.significand * 2 ^ x.exponent.toNat, 0⟩).isSome = true :=
          isSome_finish_of_exponent_le (Int.le_refl 0)
        simp only [Option.bind_some, hsome, true_iff]
        omega
      · simp only [Option.bind_none, Option.isSome_none, Bool.false_eq_true, false_iff]
        omega

end ScaledDecimal

/-! ### Whole numbers -/

/-- The number nearest to a whole number of 64 bits is below the bound for decimals. -/
theorem exists_ofInt_eq_finite {n : Int} (h : n.natAbs < 2 ^ 64) :
    ∃ x : FiniteFloat, Binary64.ofInt n = .finite x ∧ x.code < ScaledDecimal.unscaledCode := by
  have hbound : (n.natAbs : ℚ) ≤ magnitudeOfCode (1087 * codesPerBinade) := by
    have hcast : (n.natAbs : ℚ) < 2 ^ 64 := by exact_mod_cast h
    rw [magnitudeOfCode_mul_codesPerBinade 1086]
    exact hcast.le.trans_eq (by norm_num)
  have hcode : roundRatio n.natAbs 1 < ScaledDecimal.unscaledCode :=
    Nat.lt_of_le_of_lt (roundRatio_one_le_of_le hbound) (by decide)
  have hfinite : roundRatio n.natAbs 1 < infinityCode := Nat.lt_trans hcode (by decide)
  refine ⟨⟨decide (n < 0), roundRatio n.natAbs 1, hfinite⟩, ?_, hcode⟩
  rw [Binary64.ofInt, Binary64.ofRatio, Binary64.ofCode, dif_pos hfinite]

end JsonSelect
