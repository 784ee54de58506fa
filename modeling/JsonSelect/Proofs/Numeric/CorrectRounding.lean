import JsonSelect.Numeric.Decimal
import JsonSelect.Proofs.Numeric.Nearest

/-!
# Correct rounding

A number is rounded correctly to the code whose magnitude is nearest to it, and to the even one if
two codes are equally near (`IsNearestCode`).  There is never more than one such code
(`IsNearestCode.unique`), and `roundRatio` finds it (`isNearestCode_roundRatio`).  The code of
infinity takes part with the magnitude `2 ^ 1024` that would follow the finite ones, so that a
number overflows exactly from halfway between the largest finite magnitude and `2 ^ 1024` on.

Decimals are rounded correctly, too (`Decimal.code_eq_iff`): those with exponents that are not
multiplied out are beyond all finite magnitudes or below half of the smallest one.  How a decimal is
rounded therefore depends on its value only, and not on the way in which it is written.
-/

namespace JsonSelect

/-! ### Nearest codes -/

/-- A code is the one that a number is rounded to: no magnitude is nearer to the number, and where
another one is equally near, the code is even. -/
structure IsNearestCode (ratio : ℚ) (code : Nat) : Prop where
  abs_sub_le : ∀ other, |ratio - magnitudeOfCode code| ≤ |ratio - magnitudeOfCode other|
  even_of_eq : ∀ other, other ≠ code →
    |ratio - magnitudeOfCode other| = |ratio - magnitudeOfCode code| → code % 2 = 0

/-- A code that is nearer than all others. -/
theorem IsNearestCode.of_lt {ratio : ℚ} {code : Nat} (h : ∀ other, other ≠ code →
    |ratio - magnitudeOfCode code| < |ratio - magnitudeOfCode other|) :
    IsNearestCode ratio code := by
  constructor
  · intro other
    by_cases hother : other = code
    · rw [hother]
    · exact (h other hother).le
  · intro other hother heq
    exact absurd heq (h other hother).ne'

/-- A magnitude is nearest to itself. -/
theorem isNearestCode_magnitudeOfCode (code : Nat) : IsNearestCode (magnitudeOfCode code) code := by
  refine .of_lt fun other hother => ?_
  rw [sub_self, abs_zero, abs_pos, sub_ne_zero]
  exact strictMono_magnitudeOfCode.injective.ne hother.symm

namespace IsNearestCode

variable {ratio : ℚ} {code other : Nat}

/-- A number is not rounded past a magnitude above it. -/
theorem code_le (h : IsNearestCode ratio code) (hle : ratio ≤ magnitudeOfCode other) :
    code ≤ other := by
  by_contra hlt
  have hmagnitude := strictMono_magnitudeOfCode (Nat.lt_of_not_le hlt)
  have hnear := h.abs_sub_le other
  rw [abs_of_nonpos (by linarith), abs_of_nonpos (by linarith)] at hnear
  linarith

/-- A number is not rounded past a magnitude below it. -/
theorem le_code (h : IsNearestCode ratio code) (hle : magnitudeOfCode other ≤ ratio) :
    other ≤ code := by
  by_contra hlt
  have hmagnitude := strictMono_magnitudeOfCode (Nat.lt_of_not_le hlt)
  have hnear := h.abs_sub_le other
  rw [abs_of_nonneg (by linarith), abs_of_nonneg (by linarith)] at hnear
  linarith

/-- Of two nearest codes, none is less than the other. -/
theorem not_lt_of_isNearestCode (h : IsNearestCode ratio code)
    (hother : IsNearestCode ratio other) :
    ¬code < other := by
  intro hlt
  have hequal := (h.abs_sub_le other).antisymm (hother.abs_sub_le code)
  -- both codes are even, so that there is one between them, and that one is nearer
  have heven := h.even_of_eq other hlt.ne' hequal.symm
  have heven' := hother.even_of_eq code hlt.ne hequal
  have hbetween : code + 1 < other := by omega
  have hlow := strictMono_magnitudeOfCode (Nat.lt_succ_self code)
  have hhigh := strictMono_magnitudeOfCode hbetween
  have hnear := h.abs_sub_le (code + 1)
  rw [← Nat.add_one] at hlow
  rcases abs_eq_abs.mp hequal with hsame | hopposite
  · linarith
  · rw [abs_of_nonneg (by linarith)] at hnear
    rcases abs_cases (ratio - magnitudeOfCode (code + 1)) with ⟨habs, -⟩ | ⟨habs, -⟩ <;> linarith

/-- A number is rounded in one way only. -/
theorem unique (h : IsNearestCode ratio code) (hother : IsNearestCode ratio other) :
    code = other :=
  Nat.le_antisymm (Nat.not_lt.mp (hother.not_lt_of_isNearestCode h))
    (Nat.not_lt.mp (h.not_lt_of_isNearestCode hother))

end IsNearestCode

/-! ### Ratios -/

namespace RoundsToMultiple

variable {ratio : ℚ} {binade factor code : Nat}

/-- If a ratio is rounded down, the next code is on the same grid. -/
theorem le_magnitudeOfCode (h : RoundsToMultiple ratio binade factor)
    (hratio : magnitudeOfCode (binade * codesPerBinade + factor) < ratio)
    (hcode : binade * codesPerBinade + factor < code) :
    (factor + 1) * spacing binade ≤ magnitudeOfCode code := by
  have hspacing := spacing_pos binade
  rw [h.magnitudeOfCode_eq] at hratio
  have hlast : factor < 2 * codesPerBinade := by
    have hcast := lt_of_mul_lt_mul_right (hratio.trans_le h.le_last) hspacing.le
    exact_mod_cast hcast
  have hfirst : binade = 0 ∨ codesPerBinade ≤ factor + 1 :=
    h.first_le.imp_right fun hfirst => Nat.le_succ_of_le (h.le_factor _ hfirst)
  have hnext := magnitudeOfCode_binade hfirst hlast
  push_cast at hnext
  rw [← hnext]
  exact strictMono_magnitudeOfCode.monotone (by omega)

/-- If a ratio is rounded up, the code before is on the same grid. -/
theorem magnitudeOfCode_le (h : RoundsToMultiple ratio binade factor)
    (hratio : ratio < magnitudeOfCode (binade * codesPerBinade + factor))
    (hcode : code < binade * codesPerBinade + factor) :
    magnitudeOfCode code ≤ (factor - 1) * spacing binade := by
  have hspacing := spacing_pos binade
  rw [h.magnitudeOfCode_eq] at hratio
  have hfirst : binade = 0 ∨ codesPerBinade < factor := h.first_le.imp_right fun hfirst => by
    have hcast := lt_of_mul_lt_mul_right (hfirst.trans_lt hratio) hspacing.le
    exact_mod_cast hcast
  obtain ⟨before, rfl⟩ : ∃ before, factor = before + 1 :=
    Nat.exists_eq_add_one.mpr (by rcases hfirst with rfl | hfirst <;> omega)
  have hlast : before ≤ 2 * codesPerBinade := Nat.le_of_succ_le (h.factor_le _ h.le_last)
  have hbefore := magnitudeOfCode_binade (hfirst.imp_right Nat.le_of_lt_succ) hlast
  push_cast
  rw [add_sub_cancel_right, ← hbefore]
  exact strictMono_magnitudeOfCode.monotone (by omega)

/-- The multiple has the nearest code. -/
theorem isNearestCode (h : RoundsToMultiple ratio binade factor) :
    IsNearestCode ratio (binade * codesPerBinade + factor) := by
  have hmagnitude := h.magnitudeOfCode_eq
  have hhalf := h.abs_sub_le
  have hspacing := spacing_pos binade
  have hparity : (binade * codesPerBinade + factor) % 2 = factor % 2 := by
    rw [Nat.add_mod, Nat.mul_mod, show codesPerBinade % 2 = 0 by decide]
    simp
  -- another magnitude is farther away, or it is on the other side and half the spacing away
  have hfar : ∀ other, other ≠ binade * codesPerBinade + factor →
      |ratio - factor * spacing binade| < |ratio - magnitudeOfCode other| ∨
        spacing binade / 2 ≤ |ratio - magnitudeOfCode other| := by
    intro other hother
    have hbounds := abs_le.mp hhalf
    rcases Nat.lt_or_gt_of_ne hother with hbefore | hbehind
    · have hlt := strictMono_magnitudeOfCode hbefore
      rcases le_or_gt (magnitudeOfCode (binade * codesPerBinade + factor)) ratio with hle | hgt
      · rw [hmagnitude] at hlt hle
        left
        rw [abs_of_nonneg (by linarith), abs_of_nonneg (by linarith)]
        linarith
      · have hgrid := h.magnitudeOfCode_le hgt hbefore
        right
        rw [abs_of_nonneg (by linarith)]
        linarith
    · have hlt := strictMono_magnitudeOfCode hbehind
      rcases le_or_gt ratio (magnitudeOfCode (binade * codesPerBinade + factor)) with hle | hgt
      · rw [hmagnitude] at hlt hle
        left
        rw [abs_of_nonpos (by linarith), abs_of_nonpos (by linarith)]
        linarith
      · have hgrid := h.le_magnitudeOfCode hgt hbehind
        right
        rw [abs_of_nonpos (by linarith)]
        linarith
  constructor
  · intro other
    rw [hmagnitude]
    by_cases hother : other = binade * codesPerBinade + factor
    · rw [hother, hmagnitude]
    · exact (hfar other hother).elim le_of_lt hhalf.trans
  · intro other hother heq
    rw [hmagnitude] at heq
    rw [hparity]
    rcases hfar other hother with hlt | hle
    · exact absurd heq hlt.ne'
    · exact h.even_of_half (hhalf.antisymm (hle.trans heq.le))

end RoundsToMultiple

/-- A ratio is rounded correctly. -/
theorem isNearestCode_roundRatio (num : Nat) {den : Nat} (hden : den ≠ 0) :
    IsNearestCode ((num : ℚ) / den) (roundRatio num den) := by
  obtain ⟨binade, factor, h, hround⟩ := exists_roundsToMultiple num hden
  rw [hround]
  exact h.isNearestCode

/-! ### Decimals -/

theorem magnitudeOfCode_one : magnitudeOfCode 1 = 2 ^ (-1074 : Int) := by
  have hsmallest := @magnitudeOfCode_binade 0 1 (Or.inl rfl) (by decide)
  rw [Nat.zero_mul, Nat.zero_add, Nat.cast_one, one_mul, spacing] at hsmallest
  exact hsmallest

/-- Infinity takes the place of the first magnitude beyond all floats. -/
theorem magnitudeOfCode_infinityCode : magnitudeOfCode infinityCode = 2 ^ (1024 : Int) :=
  magnitudeOfCode_mul_codesPerBinade 2046

/-- What is below half of the smallest magnitude is rounded to zero. -/
theorem isNearestCode_zero {ratio : ℚ} (hnonneg : 0 ≤ ratio) (h : ratio < 10 ^ (-324 : Int)) :
    IsNearestCode ratio 0 := by
  have hhalf : (10 : ℚ) ^ (-324 : Int) * 2 < 2 ^ (-1074 : Int) := by
    have hpowers : (2 : ℚ) * 2 ^ 1074 < 10 ^ 324 := by
      exact_mod_cast (by decide +kernel : 2 * 2 ^ 1074 < 10 ^ 324)
    rw [zpow_neg, zpow_neg, inv_mul_eq_div, ← one_div, div_lt_div_iff₀ (by positivity)
      (by positivity), one_mul]
    exact_mod_cast hpowers
  refine .of_lt fun other hother => ?_
  have hmagnitude : magnitudeOfCode 1 ≤ magnitudeOfCode other :=
    strictMono_magnitudeOfCode.monotone (Nat.one_le_iff_ne_zero.mpr hother)
  rw [magnitudeOfCode_one] at hmagnitude
  rw [magnitudeOfCode_zero, sub_zero, abs_of_nonneg hnonneg, abs_of_nonpos (by linarith)]
  linarith

/-- What is beyond all finite magnitudes is rounded to none of them. -/
theorem IsNearestCode.infinityCode_le {ratio : ℚ} {code : Nat} (h : IsNearestCode ratio code)
    (hratio : 10 ^ 309 ≤ ratio) : infinityCode ≤ code := by
  refine h.le_code ?_
  have hpowers : (2 : ℚ) ^ 1024 ≤ 10 ^ 309 := by
    exact_mod_cast (by decide +kernel : 2 ^ 1024 ≤ 10 ^ 309)
  rw [magnitudeOfCode_infinityCode]
  exact (by exact_mod_cast hpowers : (2 : ℚ) ^ (1024 : Int) ≤ 10 ^ 309).trans hratio

namespace Decimal

/-- The exact value. -/
def value (d : Decimal) : ℚ :=
  d.coefficient * 10 ^ d.exponent

theorem value_nonneg (d : Decimal) : 0 ≤ d.value := by
  unfold value
  positivity

/-- The power of ten is multiplied into the numerator or the denominator. -/
theorem value_eq_div (d : Decimal) :
    d.value = ((d.coefficient * Nat.pow 10 d.exponent.toNat : Nat) : ℚ) /
      (Nat.pow 10 (-d.exponent).toNat : Nat) := by
  obtain ⟨coefficient, exponent⟩ := d
  obtain ⟨places, rfl | rfl⟩ := exponent.eq_nat_or_neg
  · simp [value]
  · simp [value, div_eq_mul_inv]

/-- A decimal has as many digits before its point as its coefficient and its exponent say. -/
theorem value_lt (d : Decimal) :
    d.value < 10 ^ (d.exponent + (decimalDigits d.coefficient).length) := by
  have hlength : d.coefficient < 10 ^ (decimalDigits d.coefficient).length :=
    (Nat.length_toDigits_le_iff (by decide) Nat.length_toDigits_pos).mp le_rfl
  have hcast : (d.coefficient : ℚ) < 10 ^ (decimalDigits d.coefficient).length := by
    exact_mod_cast hlength
  rw [value, zpow_add₀ (by norm_num), zpow_natCast, mul_comm]
  exact mul_lt_mul_of_pos_left hcast (by positivity)

/-- A decimal is rounded correctly. -/
theorem code_eq_iff {d : Decimal} {code : Nat} (h : code < infinityCode) :
    d.code = code ↔ IsNearestCode d.value code := by
  -- the decimal either has the nearest code, or it overflows
  have hcases : IsNearestCode d.value d.code ∨
      d.code = infinityCode ∧ ∀ code, IsNearestCode d.value code → infinityCode ≤ code := by
    unfold Decimal.code
    split
    · next hzero =>
      left
      rw [value, hzero, Nat.cast_zero, zero_mul, ← magnitudeOfCode_zero]
      exact isNearestCode_magnitudeOfCode 0
    · next hzero =>
      split
      · next hlarge =>
        refine Or.inr ⟨rfl, fun code hcode => hcode.infinityCode_le ?_⟩
        have hone : (1 : ℚ) ≤ d.coefficient := by
          exact_mod_cast Nat.one_le_iff_ne_zero.mpr hzero
        calc (10 : ℚ) ^ 309
          _ ≤ 10 ^ d.exponent := zpow_le_zpow_right₀ (by norm_num) hlarge
          _ ≤ d.coefficient * 10 ^ d.exponent := le_mul_of_one_le_left (by positivity) hone
      · split
        · next hsmall =>
          left
          exact isNearestCode_zero d.value_nonneg
            (d.value_lt.trans_le (zpow_le_zpow_right₀ (by norm_num) hsmall))
        · left
          rw [value_eq_div]
          exact isNearestCode_roundRatio _ (Nat.pow_pos (by decide)).ne'
  rcases hcases with hnearest | ⟨hoverflow, hinfinite⟩
  · exact ⟨fun heq => heq ▸ hnearest, hnearest.unique⟩
  · constructor
    · rintro rfl
      exact absurd h (hoverflow ▸ lt_irrefl _)
    · intro hnearest
      exact absurd h (Nat.not_lt.mpr (hinfinite code hnearest))

end Decimal

end JsonSelect
