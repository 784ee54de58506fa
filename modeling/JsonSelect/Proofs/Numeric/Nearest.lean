import Mathlib.Tactic.FieldSimp
import JsonSelect.Proofs.Numeric.Magnitude

/-!
# Rounding to the nearest code

A ratio is rounded on the grid of one binade: it is scaled by the spacing of the binade, and the
scaled ratio is rounded to a whole number (`RoundsToMultiple`, `exists_roundsToMultiple`).  That
number may be the end of the binade, whose code is the first one of the next binade.

What matters for the order of numbers is that a ratio is never rounded past a code.  A magnitude
above the ratio has a code that is not below the rounded one, and likewise for a magnitude below it
(`roundRatio_le_of_le_magnitude`, `le_roundRatio_of_magnitude_le`).  On the grid of the binade this
is plain, and the codes of all other binades are on the far side of one of the two ends.
-/

namespace JsonSelect

/-! ### Whole quotients -/

/-- A rounded quotient is not less than an integer that the quotient is not less than. -/
theorem le_divideHalfEven {num den m : Nat} (hden : 0 < den) (h : m * den ≤ num) :
    m ≤ divideHalfEven num den := by
  have hquotient : m ≤ num / den := (Nat.le_div_iff_mul_le hden).mpr h
  unfold divideHalfEven
  dsimp only
  split
  · exact hquotient
  · split <;> omega

/-- A rounded quotient is not greater than an integer that the quotient is not greater than. -/
theorem divideHalfEven_le {num den m : Nat} (hden : 0 < den) (h : num ≤ m * den) :
    divideHalfEven num den ≤ m := by
  unfold divideHalfEven
  dsimp only
  rcases Nat.eq_or_lt_of_le h with rfl | hlt
  · rw [Nat.mul_mod_left, Nat.mul_div_cancel _ hden, if_pos hden]
  · have hquotient : num / den < m := (Nat.div_lt_iff_lt_mul hden).mpr hlt
    split
    · exact hquotient.le
    · split <;> omega

/-- A quotient is rounded by a half at most, and by a half only to an even number. -/
theorem divideHalfEven_within_half (num : Nat) {den : Nat} (hden : 0 < den) :
    2 * num ≤ 2 * (divideHalfEven num den * den) + den ∧
      2 * (divideHalfEven num den * den) ≤ 2 * num + den ∧
      (2 * num = 2 * (divideHalfEven num den * den) + den ∨
        2 * (divideHalfEven num den * den) = 2 * num + den → divideHalfEven num den % 2 = 0) := by
  have hsplit : num / den * den + num % den = num := by
    rw [Nat.mul_comm]
    exact Nat.div_add_mod num den
  have hnext : (num / den + 1) * den = num / den * den + den := Nat.succ_mul _ _
  have hremainder : num % den < den := Nat.mod_lt num hden
  unfold divideHalfEven
  dsimp only
  -- the remainder is below a half, above it, or exactly a half
  split
  · omega
  · split
    · rw [hnext]
      omega
    · rcases Nat.mod_two_eq_zero_or_one (num / den) with heven | hodd
      · rw [heven, Nat.add_zero]
        omega
      · rw [hodd, hnext]
        omega

/-! ### The grid of a ratio -/

/-- A ratio scaled by a power of two, with that power multiplied into its numerator or its
denominator. -/
theorem shifted_ratio_mul (num den : Nat) (e : Int) :
    ((num <<< (-e).toNat : Nat) : ℚ) / (den <<< e.toNat : Nat) * 2 ^ e = num / den := by
  obtain ⟨shift, rfl | rfl⟩ := e.eq_nat_or_neg
  · have hnone : (-(shift : Int)).toNat = 0 := Int.toNat_of_nonpos (by omega)
    rw [hnone, Int.toNat_natCast, Nat.shiftLeft_zero, Nat.shiftLeft_eq, zpow_natCast]
    push_cast
    field_simp
  · have hnone : (-(shift : Int)).toNat = 0 := Int.toNat_of_nonpos (by omega)
    rw [hnone, Int.neg_neg, Int.toNat_natCast, Nat.shiftLeft_zero, Nat.shiftLeft_eq, zpow_neg,
      zpow_natCast]
    push_cast
    field_simp

/-- The power of two at the front of a positive ratio. -/
theorem ratioLog2_bounds {num den : Nat} (hnum : num ≠ 0) (hden : den ≠ 0) :
    (2 : ℚ) ^ ratioLog2 num den ≤ num / den ∧ (num : ℚ) / den < 2 ^ (ratioLog2 num den + 1) := by
  have hdenpos : (0 : ℚ) < den := by exact_mod_cast Nat.pos_of_ne_zero hden
  have hnumlow : (2 : ℚ) ^ num.log2 ≤ num := by exact_mod_cast Nat.log2_self_le hnum
  have hnumhigh : (num : ℚ) < 2 ^ (num.log2 + 1) := by exact_mod_cast Nat.lt_log2_self
  have hdenlow : (2 : ℚ) ^ den.log2 ≤ den := by exact_mod_cast Nat.log2_self_le hden
  have hdenhigh : (den : ℚ) < 2 ^ (den.log2 + 1) := by exact_mod_cast Nat.lt_log2_self
  generalize hk : (num.log2 : Int) - den.log2 = k
  have hsplit : num.log2 = k + den.log2 := by omega
  have hlow : (2 : ℚ) ^ (k - 1) ≤ num / den := by
    rw [le_div_iff₀ hdenpos]
    calc (2 : ℚ) ^ (k - 1) * den
      _ ≤ 2 ^ (k - 1) * 2 ^ (den.log2 + 1) := by gcongr
      _ = 2 ^ (k - 1 + (den.log2 + 1 : Nat)) := by rw [zpow_add₀ two_ne_zero, zpow_natCast]
      _ = 2 ^ num.log2 := by rw [← zpow_natCast]; congr 1; omega
      _ ≤ num := hnumlow
  have hhigh : (num : ℚ) / den < 2 ^ (k + 1) := by
    rw [div_lt_iff₀ hdenpos]
    calc (num : ℚ)
      _ < 2 ^ (num.log2 + 1) := hnumhigh
      _ = 2 ^ (k + 1 + (den.log2 : Nat)) := by rw [← zpow_natCast]; congr 1; omega
      _ = 2 ^ (k + 1) * 2 ^ den.log2 := by rw [zpow_add₀ two_ne_zero, zpow_natCast]
      _ ≤ 2 ^ (k + 1) * den := by gcongr
  have hshifted : den <<< k.toNat ≤ num <<< (-k).toNat ↔ (2 : ℚ) ^ k ≤ num / den := by
    have hpos : (0 : ℚ) < (den <<< k.toNat : Nat) := by
      rw [Nat.shiftLeft_eq]
      exact_mod_cast Nat.mul_pos (Nat.pos_of_ne_zero hden) (Nat.two_pow_pos _)
    rw [← shifted_ratio_mul num den k, le_mul_iff_one_le_left (by positivity), one_le_div₀ hpos,
      Nat.cast_le]
  unfold ratioLog2
  dsimp only
  rw [hk]
  split
  · next h => exact ⟨hshifted.mp h, hhigh⟩
  · next h =>
    rw [Int.sub_add_cancel]
    exact ⟨hlow, lt_of_not_ge fun hle => h (hshifted.mpr hle)⟩

/-- The factor of the first multiple of its spacing in a binade. -/
theorem cast_codesPerBinade : ((codesPerBinade : Nat) : ℚ) = 2 ^ (52 : Int) := by
  rw [codesPerBinade, Nat.one_shiftLeft]
  norm_num

/-- A ratio within a binade, and a multiple of the spacing past which it is not rounded.  The two
are half the spacing apart at most, and only if the multiple is an even one. -/
structure RoundsToMultiple (ratio : ℚ) (binade factor : Nat) : Prop where
  first_le : binade = 0 ∨ codesPerBinade * spacing binade ≤ ratio
  le_last : ratio ≤ (2 * codesPerBinade : Nat) * spacing binade
  le_factor : ∀ m : Nat, m * spacing binade ≤ ratio → m ≤ factor
  factor_le : ∀ m : Nat, ratio ≤ m * spacing binade → factor ≤ m
  abs_sub_le : |ratio - factor * spacing binade| ≤ spacing binade / 2
  even_of_half : |ratio - factor * spacing binade| = spacing binade / 2 → factor % 2 = 0

/-- A quotient is half a unit away from the whole number it is rounded to at most, and only if that
is even. -/
theorem abs_sub_divideHalfEven_le (num : Nat) {den : Nat} (hden : 0 < den) :
    |(num : ℚ) / den - divideHalfEven num den| ≤ 1 / 2 ∧
      (|(num : ℚ) / den - divideHalfEven num den| = 1 / 2 → divideHalfEven num den % 2 = 0) := by
  have hdenpos : (0 : ℚ) < den := by exact_mod_cast hden
  obtain ⟨habove, hbelow, heven⟩ := divideHalfEven_within_half num hden
  generalize divideHalfEven num den = m at habove hbelow heven ⊢
  have hnum : (num : ℚ) = num / den * den := (div_mul_cancel₀ _ hdenpos.ne').symm
  have habove' : (num : ℚ) / den ≤ m + 1 / 2 := by
    have hcast : (2 : ℚ) * num ≤ 2 * (m * den) + den := by exact_mod_cast habove
    rw [div_le_iff₀ hdenpos]
    linarith
  have hbelow' : m - 1 / 2 ≤ (num : ℚ) / den := by
    have hcast : (2 : ℚ) * (m * den) ≤ 2 * num + den := by exact_mod_cast hbelow
    rw [le_div_iff₀ hdenpos]
    linarith
  refine ⟨abs_le.mpr ⟨by linarith, by linarith⟩, fun hhalf => heven ?_⟩
  -- the quotient lies exactly between two whole numbers, on one side of the rounded one
  rcases eq_or_eq_neg_of_abs_eq hhalf with hquotient | hquotient
  · left
    have hcast : (2 : ℚ) * num = 2 * (m * den) + den := by
      rw [hnum, sub_eq_iff_eq_add.mp hquotient]
      ring
    exact_mod_cast hcast
  · right
    have hcast : (2 : ℚ) * (m * den) = 2 * num + den := by
      rw [hnum, sub_eq_iff_eq_add.mp hquotient]
      ring
    exact_mod_cast hcast

/-- A ratio that is scaled by the spacing and rounded is rounded to a multiple of the spacing. -/
theorem roundsToMultiple_divideHalfEven {num den binade : Nat} {ratio : ℚ} (hden : 0 < den)
    (hscaled : (num : ℚ) / den * spacing binade = ratio)
    (hfirst : binade = 0 ∨ codesPerBinade * spacing binade ≤ ratio)
    (hlast : ratio ≤ (2 * codesPerBinade : Nat) * spacing binade) :
    RoundsToMultiple ratio binade (divideHalfEven num den) := by
  have hdenpos : (0 : ℚ) < den := by exact_mod_cast hden
  have hspacing := spacing_pos binade
  obtain ⟨hhalf, heven⟩ := abs_sub_divideHalfEven_le num hden
  have hdistance : |ratio - divideHalfEven num den * spacing binade| =
      |(num : ℚ) / den - divideHalfEven num den| * spacing binade := by
    rw [← hscaled, ← sub_mul, abs_mul, abs_of_pos hspacing]
  have hunit : spacing binade / 2 = 1 / 2 * spacing binade := by ring
  refine ⟨hfirst, hlast, fun m h => le_divideHalfEven hden ?_,
    fun m h => divideHalfEven_le hden ?_, ?_, fun h => heven ?_⟩
  · rw [← hscaled, mul_le_mul_iff_of_pos_right hspacing, le_div_iff₀ hdenpos] at h
    exact_mod_cast h
  · rw [← hscaled, mul_le_mul_iff_of_pos_right hspacing, div_le_iff₀ hdenpos] at h
    exact_mod_cast h
  · rw [hdistance, hunit]
    exact mul_le_mul_of_nonneg_right hhalf hspacing.le
  · rw [hdistance, hunit] at h
    exact mul_right_cancel₀ hspacing.ne' h

/-- Rounding takes place on the grid of the binade of the ratio. -/
theorem exists_roundsToMultiple (num : Nat) {den : Nat} (hden : den ≠ 0) :
    ∃ binade factor : Nat, RoundsToMultiple ((num : ℚ) / den) binade factor ∧
      roundRatio num den = binade * codesPerBinade + factor := by
  by_cases hnum : num = 0
  · have hspacing := spacing_pos 0
    refine ⟨0, 0, ⟨Or.inl rfl, ?_, fun m h => ?_, fun m _ => Nat.zero_le m, ?_, fun _ => rfl⟩, ?_⟩
    · rw [hnum, Nat.cast_zero, zero_div]
      positivity
    · rw [hnum, Nat.cast_zero, zero_div] at h
      exact_mod_cast nonpos_of_mul_nonpos_left h hspacing
    · rw [hnum, Nat.cast_zero, zero_div, zero_mul, sub_zero, abs_zero]
      positivity
    · rw [roundRatio, if_pos hnum, Nat.zero_mul]
  obtain ⟨hlow, hhigh⟩ := ratioLog2_bounds hnum hden
  generalize hk : ratioLog2 num den = k at hlow hhigh
  generalize he : max (-1074) (k - 52) = e
  generalize hbinade : (e + 1074).toNat = binade
  have hexponent : (binade : Int) - 1074 = e := by omega
  have hspacing : spacing binade = 2 ^ e := by rw [spacing, hexponent]
  have hpos : 0 < den <<< e.toNat := by
    rw [Nat.shiftLeft_eq]
    exact Nat.mul_pos (Nat.pos_of_ne_zero hden) (Nat.two_pow_pos _)
  refine ⟨binade, divideHalfEven (num <<< (-e).toNat) (den <<< e.toNat),
    roundsToMultiple_divideHalfEven hpos ?_ ?_ ?_, ?_⟩
  · rw [hspacing, shifted_ratio_mul]
  · rcases Nat.eq_zero_or_pos binade with hzero | hbinadepos
    · exact Or.inl hzero
    · have hle : (52 : Int) + e ≤ k := by omega
      rw [hspacing, cast_codesPerBinade, ← zpow_add₀ two_ne_zero]
      exact Or.inr ((zpow_le_zpow_right₀ one_le_two hle).trans hlow)
  · have hle : k + 1 ≤ 1 + (52 : Int) + e := by omega
    rw [hspacing, Nat.cast_mul, Nat.cast_two, cast_codesPerBinade, ← zpow_one_add₀ two_ne_zero,
      ← zpow_add₀ two_ne_zero]
    exact hhigh.le.trans (zpow_le_zpow_right₀ one_le_two hle)
  · rw [roundRatio, if_neg hnum, hk]
    dsimp only
    rw [he, hbinade]

/-! ### Rounding and order -/

/-- A multiple of the spacing is the magnitude of its code. -/
theorem RoundsToMultiple.magnitudeOfCode_eq {ratio : ℚ} {binade factor : Nat}
    (h : RoundsToMultiple ratio binade factor) :
    magnitudeOfCode (binade * codesPerBinade + factor) = factor * spacing binade :=
  magnitudeOfCode_binade (h.first_le.imp_right (h.le_factor _)) (h.factor_le _ h.le_last)

/-- A ratio is not rounded past a magnitude above it. -/
theorem roundRatio_le_of_le_magnitude {num den code : Nat} (hden : den ≠ 0)
    (hratio : (num : ℚ) / den ≤ magnitudeOfCode code) : roundRatio num den ≤ code := by
  obtain ⟨binade, factor, h, hround⟩ := exists_roundsToMultiple num hden
  rw [hround]
  by_contra hcode
  by_cases hfirst : binade = 0 ∨ codesPerBinade < factor
  · -- the code before the rounded one is on the same grid, and not below the ratio either
    have hfactorpos : 0 < factor := by
      rcases hfirst with rfl | hfirst <;> omega
    obtain ⟨before, rfl⟩ := Nat.exists_eq_add_one.mpr hfactorpos
    have hbefore : (num : ℚ) / den ≤ before * spacing binade := by
      rw [← magnitudeOfCode_binade (hfirst.imp_right Nat.lt_succ_iff.mp)
        (Nat.le_of_succ_le (h.factor_le _ h.le_last))]
      exact hratio.trans (strictMono_magnitudeOfCode.monotone (by omega))
    exact absurd (h.factor_le before hbefore) (Nat.not_succ_le_self before)
  · -- the rounded code is the first one of the grid, and the ratio is not below it
    obtain ⟨hbinade, hfactor⟩ := not_or.mp hfirst
    have hstart : magnitudeOfCode (binade * codesPerBinade + factor) ≤ num / den := by
      have hfactor' : (factor : ℚ) ≤ codesPerBinade := Nat.cast_le.mpr (Nat.not_lt.mp hfactor)
      rw [h.magnitudeOfCode_eq]
      exact (mul_le_mul_of_nonneg_right hfactor' (spacing_pos binade).le).trans
        (h.first_le.resolve_left hbinade)
    exact hcode (strictMono_magnitudeOfCode.le_iff_le.mp (hstart.trans hratio))

/-- A ratio is not rounded past a magnitude below it. -/
theorem le_roundRatio_of_magnitude_le {num den code : Nat} (hden : den ≠ 0)
    (hratio : magnitudeOfCode code ≤ num / den) : code ≤ roundRatio num den := by
  obtain ⟨binade, factor, h, hround⟩ := exists_roundsToMultiple num hden
  rw [hround]
  by_contra hcode
  rcases Nat.lt_or_eq_of_le (h.factor_le _ h.le_last) with hlt | hlast
  · -- the code behind the rounded one is on the same grid, and not above the ratio either
    have hbehind : ((factor + 1 : Nat) : ℚ) * spacing binade ≤ num / den := by
      rw [← magnitudeOfCode_binade
        (h.first_le.imp_right fun hfirst => Nat.le_succ_of_le (h.le_factor _ hfirst)) hlt]
      exact (strictMono_magnitudeOfCode.monotone (by omega)).trans hratio
    exact absurd (h.le_factor _ hbehind) (Nat.not_succ_le_self factor)
  · -- the rounded code is the end of the grid, and the ratio is not above it
    have hend : (num : ℚ) / den ≤ magnitudeOfCode (binade * codesPerBinade + factor) := by
      rw [h.magnitudeOfCode_eq, hlast]
      exact h.le_last
    exact hcode (strictMono_magnitudeOfCode.le_iff_le.mp (hratio.trans hend))

/-! ### Whole numbers -/

/-- A binade begins with a power of two. -/
theorem magnitudeOfCode_mul_codesPerBinade (binade : Nat) :
    magnitudeOfCode ((binade + 1) * codesPerBinade) = 2 ^ ((binade : Int) - 1022) := by
  have hexponent : (52 : Int) + ((binade : Int) - 1074) = (binade : Int) - 1022 := by ring
  rw [Nat.succ_mul, magnitudeOfCode_binade (Or.inr le_rfl) (Nat.le_mul_of_pos_left _ two_pos),
    cast_codesPerBinade, spacing, ← zpow_add₀ two_ne_zero, hexponent]

/-- A whole number is its absolute value with a sign. -/
theorem intCast_eq_signed (n : Int) :
    (n : ℚ) = if decide (n < 0) then -(n.natAbs : ℚ) else (n.natAbs : ℚ) := by
  rcases Int.lt_or_le n 0 with hneg | hpos
  · rw [decide_eq_true hneg, if_pos rfl, Nat.cast_natAbs, abs_of_neg hneg]
    push_cast
    ring
  · rw [decide_eq_false (Int.not_lt.mpr hpos), if_neg Bool.false_ne_true, Nat.cast_natAbs,
      abs_of_nonneg hpos]

/-- An integer that is not beyond a magnitude is not rounded beyond it. -/
theorem roundRatio_one_le_of_le {n code : Nat} (h : (n : ℚ) ≤ magnitudeOfCode code) :
    roundRatio n 1 ≤ code :=
  roundRatio_le_of_le_magnitude one_ne_zero (by rwa [Nat.cast_one, div_one])

/-- An integer that is not below a magnitude is not rounded below it. -/
theorem le_roundRatio_one_of_le {n code : Nat} (h : magnitudeOfCode code ≤ n) :
    code ≤ roundRatio n 1 :=
  le_roundRatio_of_magnitude_le one_ne_zero (by rwa [Nat.cast_one, div_one])

section OfInt

variable {n : Int} {x : FiniteFloat}

/-- The key of the float for an integer is its rounded absolute value with its sign. -/
theorem key_of_ofInt_eq_finite (hx : Binary64.ofInt n = .finite x) :
    x.key = if decide (n < 0) then -(roundRatio n.natAbs 1 : Int) else roundRatio n.natAbs 1 := by
  unfold Binary64.ofInt Binary64.ofRatio Binary64.ofCode at hx
  split at hx
  · obtain rfl := Binary64.finite.inj hx
    rfl
  · cases hx

/-- A whole number is not rounded past a number above it. -/
theorem value_le_of_ofInt_le (hx : Binary64.ofInt n = .finite x) {y : FiniteFloat}
    (h : (n : ℚ) ≤ y.value) : x.value ≤ y.value := by
  rw [intCast_eq_signed, FiniteFloat.value] at h
  rw [FiniteFloat.value_le_value_iff, key_of_ofInt_eq_finite hx, FiniteFloat.key]
  refine signed_le_signed (Nat.cast_nonneg _) y.magnitude_nonneg (Int.natCast_nonneg _)
    (Int.natCast_nonneg _) (fun hle => Int.ofNat_le.mpr (roundRatio_one_le_of_le hle))
    (fun hge => Int.ofNat_le.mpr (le_roundRatio_one_of_le hge)) (fun hzero => ?_) h
  rw [Nat.cast_eq_zero.mp hzero]
  rfl

/-- A whole number is not rounded past a number below it. -/
theorem le_value_of_le_ofInt (hx : Binary64.ofInt n = .finite x) {y : FiniteFloat}
    (h : y.value ≤ n) : y.value ≤ x.value := by
  rw [intCast_eq_signed, FiniteFloat.value] at h
  rw [FiniteFloat.value_le_value_iff, key_of_ofInt_eq_finite hx, FiniteFloat.key]
  refine signed_le_signed y.magnitude_nonneg (Nat.cast_nonneg _) (Int.natCast_nonneg _)
    (Int.natCast_nonneg _) (fun hle => Int.ofNat_le.mpr (le_roundRatio_one_of_le hle))
    (fun hge => Int.ofNat_le.mpr (roundRatio_one_le_of_le hge)) (fun hzero => ?_) h
  rw [FiniteFloat.magnitude_eq, ← magnitudeOfCode_zero,
    strictMono_magnitudeOfCode.injective.eq_iff] at hzero
  rw [hzero]
  rfl

end OfInt

end JsonSelect
