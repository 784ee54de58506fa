import JsonSelect.Numeric.Shortest
import JsonSelect.Proofs.Numeric.CorrectRounding

/-!
# Shortest decimals

The shortest decimal of a number has the code of that number (`code_shortest`), which means that the
number is the nearest one to it.  From this follows what the decimal has in common with the number:
it is on the same side of every other magnitude, and it is whole exactly if the number is
(`isWhole_shortest_iff`).

Whole numbers are rounded to whole numbers (`IsNearestCode.isWhole`), so that a number with a whole
decimal is whole.  The other way round, a whole number reads back on the grid of all its digits, and
so the search for a shorter decimal does not go beyond that grid to decimals with a fraction.
-/

namespace JsonSelect

/-! ### Whole magnitudes -/

/-- Whether a number without a sign is whole. -/
def IsWhole (value : ℚ) : Prop :=
  ∃ n : Nat, value = n

/-- Magnitudes with all bits of the significand before the point are whole. -/
theorem isWhole_magnitudeOfCode {code : Nat} (h : 2 ^ 52 ≤ magnitudeOfCode code) :
    IsWhole (magnitudeOfCode code) := by
  obtain ⟨binade, factor, hlow, hhigh, rfl⟩ := exists_binade code
  have hmagnitude := magnitudeOfCode_binade hlow hhigh.le
  rcases Nat.lt_or_ge binade 1074 with hsmall | hlarge
  · have hfactor : (factor : ℚ) < 2 ^ 53 := by exact_mod_cast hhigh
    have hspacing : spacing binade ≤ 2 ^ (-1 : Int) :=
      zpow_le_zpow_right₀ one_le_two (by omega)
    have hbelow : magnitudeOfCode (binade * codesPerBinade + factor) < 2 ^ 52 := by
      calc magnitudeOfCode (binade * codesPerBinade + factor)
        _ = factor * spacing binade := hmagnitude
        _ < 2 ^ 53 * spacing binade := mul_lt_mul_of_pos_right hfactor (spacing_pos binade)
        _ ≤ 2 ^ 53 * 2 ^ (-1 : Int) := mul_le_mul_of_nonneg_left hspacing (by positivity)
        _ = 2 ^ 52 := by norm_num
    exact absurd h hbelow.not_ge
  · obtain ⟨power, rfl⟩ := Nat.exists_eq_add_of_le hlarge
    refine ⟨factor * 2 ^ power, ?_⟩
    have hexponent : ((1074 + power : Nat) : Int) - 1074 = power := by
      push_cast
      ring
    rw [hmagnitude, spacing, hexponent, zpow_natCast]
    push_cast
    rfl

/-- Every whole number with at most 52 bits behind its first one is a magnitude. -/
theorem exists_magnitudeOfCode_eq {n : Nat} (h : n ≤ 2 ^ 52) :
    ∃ code, magnitudeOfCode code = n := by
  rcases Nat.eq_zero_or_pos n with rfl | hpos
  · exact ⟨0, magnitudeOfCode_zero⟩
  · have hlow : 2 ^ n.log2 ≤ n := Nat.log2_self_le hpos.ne'
    have hhigh : n < 2 ^ (n.log2 + 1) := Nat.lt_log2_self
    have hlog : n.log2 ≤ 52 := (Nat.pow_le_pow_iff_right one_lt_two).mp (hlow.trans h)
    obtain ⟨shift, hshift⟩ := Nat.exists_eq_add_of_le hlog
    have hunit : codesPerBinade = 2 ^ n.log2 * 2 ^ shift := by
      rw [← pow_add, ← hshift]
      rfl
    have hfirst : codesPerBinade ≤ n * 2 ^ shift := hunit ▸ Nat.mul_le_mul_right _ hlow
    have hlast : n * 2 ^ shift ≤ 2 * codesPerBinade := by
      rw [hunit, ← mul_assoc, ← pow_succ']
      exact Nat.mul_le_mul_right _ hhigh.le
    refine ⟨(1022 + n.log2) * codesPerBinade + n * 2 ^ shift, ?_⟩
    have hexponent : ((1022 + n.log2 : Nat) : Int) - 1074 = -shift := by omega
    rw [magnitudeOfCode_binade (Or.inr hfirst) hlast, spacing, hexponent, zpow_neg, zpow_natCast]
    push_cast
    rw [mul_assoc, mul_inv_cancel₀ (by positivity), mul_one]

namespace IsNearestCode

variable {ratio : ℚ} {code other : Nat}

/-- What is rounded to a smaller code is smaller. -/
theorem lt_magnitudeOfCode (h : IsNearestCode ratio code) (hlt : code < other) :
    ratio < magnitudeOfCode other := by
  by_contra hle
  exact absurd (h.le_code (not_lt.mp hle)) (Nat.not_le.mpr hlt)

/-- What is rounded to a larger code is larger. -/
theorem magnitudeOfCode_lt (h : IsNearestCode ratio code) (hlt : other < code) :
    magnitudeOfCode other < ratio := by
  by_contra hle
  exact absurd (h.code_le (not_lt.mp hle)) (Nat.not_le.mpr hlt)

/-- Whole numbers are rounded to whole numbers. -/
theorem isWhole {n : Nat} (h : IsNearestCode n code) : IsWhole (magnitudeOfCode code) := by
  rcases le_or_gt (2 ^ 52) (magnitudeOfCode code) with hlarge | hsmall
  · exact isWhole_magnitudeOfCode hlarge
  · obtain ⟨first, hfirst⟩ := exists_magnitudeOfCode_eq (le_refl (2 ^ 52))
    have hcode : code < first := by
      rw [← strictMono_magnitudeOfCode.lt_iff_lt, hfirst]
      exact_mod_cast hsmall
    have hn : (n : ℚ) < (2 ^ 52 : Nat) := hfirst ▸ h.lt_magnitudeOfCode hcode
    obtain ⟨exact, hexact⟩ := exists_magnitudeOfCode_eq (Nat.cast_lt.mp hn).le
    have hnearest : IsNearestCode n exact := hexact ▸ isNearestCode_magnitudeOfCode exact
    exact ⟨n, by rw [h.unique hnearest, hexact]⟩

end IsNearestCode

namespace FiniteFloat

variable {x : FiniteFloat} {tie : Tie}

/-! ### Decimals that read back -/

/-- The magnitude is the ratio on which the search for a decimal works. -/
theorem magnitude_eq_div (x : FiniteFloat) : x.magnitude = x.numerator / x.denominator := by
  have hratio := shifted_ratio_mul x.significand 1 (-x.exponent)
  rw [neg_neg, Nat.cast_one, div_one] at hratio
  rw [magnitude, ← hratio, mul_assoc, ← zpow_add₀ two_ne_zero, neg_add_cancel, zpow_zero, mul_one]
  rfl

/-- The exact decimal of a float has its magnitude as its value. -/
theorem value_exactDecimal (x : FiniteFloat) : x.exactDecimal.value = x.magnitude := by
  rw [exactDecimal, Decimal.value, magnitude]
  obtain ⟨places, hexponent | hexponent⟩ := x.exponent.eq_nat_or_neg
  · rw [hexponent, Int.toNat_natCast, Int.toNat_of_nonpos (by omega), min_eq_right (by omega),
      Nat.shiftLeft_eq]
    simp
  · rw [hexponent, neg_neg, Int.toNat_natCast, Int.toNat_of_nonpos (by omega),
      min_eq_left (by omega)]
    have hpow : ((10 : ℚ) ^ places) = 2 ^ places * 5 ^ places := by rw [← mul_pow]; norm_num
    simp [hpow]
    field_simp

/-- The nearer of the two neighbours is one of them. -/
theorem nearer_eq (tie : Tie) (x : FiniteFloat) (low : Nat) (scale : Int) :
    nearer tie x low scale = low ∨ nearer tie x low scale = low + 1 := by
  unfold nearer
  dsimp only
  split
  · exact Or.inl rfl
  · exact Or.inr rfl
  · split
    · exact Or.inr rfl
    · exact ite_eq_or_eq _ _ _

/-- What is found on a grid reads back, and belongs to that grid. -/
theorem of_onGrid_eq_some {digits : Nat} {d : Decimal} (h : x.onGrid tie digits = some d) :
    d.code = x.code ∧ d.exponent = ratioLog10 x.numerator x.denominator - digits + 1 := by
  unfold onGrid at h
  dsimp only at h
  split at h
  · next hlow hhigh =>
    obtain rfl := Option.some.inj h
    refine ⟨?_, rfl⟩
    rcases nearer_eq tie x _ _ with hnearer | hnearer
    · rw [hnearer]
      exact of_decide_eq_true hlow
    · rw [hnearer]
      exact of_decide_eq_true hhigh
  · next hlow _ =>
    obtain rfl := Option.some.inj h
    exact ⟨of_decide_eq_true hlow, rfl⟩
  · next hhigh =>
    obtain rfl := Option.some.inj h
    exact ⟨of_decide_eq_true hhigh, rfl⟩
  · contradiction

/-- A decimal with the value of a number reads back. -/
theorem code_eq_of_value_eq {d : Decimal} (h : d.value = x.magnitude) : d.code = x.code := by
  rw [Decimal.code_eq_iff x.code_lt, h, magnitude_eq]
  exact isNearestCode_magnitudeOfCode x.code

/-- The grids are searched from the coarsest one on. -/
theorem shortest_cases (x : FiniteFloat) (tie : Tie) :
    (x.code = 0 ∧ x.shortest tie = ⟨0, 0⟩) ∨
      (x.shortest tie).value = x.magnitude ∨
        x.code ≠ 0 ∧ ∃ before, x.onGrid tie (before + 1) = some (x.shortest tie) ∧
          ∀ digits, digits ≠ 0 → digits ≤ before → x.onGrid tie digits = none := by
  unfold shortest
  split
  · next hzero => exact Or.inl ⟨hzero, rfl⟩
  · next hpositive =>
    right
    cases hfind : (List.range 17).findSome? fun i => x.onGrid tie (i + 1) with
    | none => exact Or.inl x.value_exactDecimal
    | some d =>
      right
      obtain ⟨coarser, before, finer, hrange, hgrid, hcoarser⟩ :=
        List.findSome?_eq_some_iff.mp hfind
      refine ⟨hpositive, before, hgrid, fun digits hpos hle => ?_⟩
      obtain ⟨i, rfl⟩ := Nat.exists_eq_add_one.mpr (Nat.pos_of_ne_zero hpos)
      have hsorted : (List.range 17).Pairwise (· < ·) := List.pairwise_lt_range
      rw [hrange, List.pairwise_append, List.pairwise_cons] at hsorted
      have hi : i ∈ List.range 17 := by
        have hbefore : before ∈ List.range 17 := hrange ▸ List.mem_append_right _ List.mem_cons_self
        rw [List.mem_range] at hbefore ⊢
        exact (Nat.lt_of_succ_le hle).trans hbefore
      rw [hrange, List.mem_append, List.mem_cons] at hi
      rcases hi with hi | rfl | hi
      · exact hcoarser i hi
      · exact absurd hle (Nat.not_succ_le_self i)
      · exact absurd (hsorted.2.1.1 i hi) (Nat.not_lt.mpr (Nat.le_of_succ_le hle))

/-- The shortest decimal reads back. -/
theorem code_shortest (x : FiniteFloat) (tie : Tie) : (x.shortest tie).code = x.code := by
  rcases x.shortest_cases tie with ⟨hzero, hshortest⟩ | hvalue | ⟨-, before, hgrid, -⟩
  · rw [hshortest, hzero]
    rfl
  · exact code_eq_of_value_eq hvalue
  · exact (of_onGrid_eq_some hgrid).1

/-- The shortest decimal of a float is read back as that float. -/
theorem isNearestCode_shortest (x : FiniteFloat) (tie : Tie) :
    IsNearestCode (x.shortest tie).value x.code :=
  (Decimal.code_eq_iff x.code_lt).mp (x.code_shortest tie)

/-! ### Whole numbers -/

/-- A whole number reads back on the grid of all its digits. -/
theorem onGrid_of_magnitude_eq (tie : Tie) {n : Nat} (hn : n ≠ 0) (h : x.magnitude = n) :
    ratioLog10 x.numerator x.denominator = (decimalDigits n).length - 1 ∧
      x.onGrid tie (decimalDigits n).length ≠ none := by
  have hden := x.denominator_pos
  have hnum : x.numerator = n * x.denominator := by
    have hdenominator : (x.denominator : ℚ) ≠ 0 := by exact_mod_cast hden.ne'
    rw [magnitude_eq_div, div_eq_iff hdenominator] at h
    exact_mod_cast h
  have hlog : ratioLog10 x.numerator x.denominator = (decimalDigits n).length - 1 := by
    rw [ratioLog10, hnum, if_pos (Nat.le_mul_of_pos_left _ (Nat.pos_of_ne_zero hn)),
      Nat.mul_div_cancel _ hden]
  refine ⟨hlog, ?_⟩
  have hscale : ratioLog10 x.numerator x.denominator - (decimalDigits n).length + 1 = 0 := by
    omega
  have hback : x.readsBack ⟨n, 0⟩ = true := by
    refine decide_eq_true (code_eq_of_value_eq ?_)
    rw [h]
    simp [Decimal.value]
  unfold onGrid
  dsimp only
  rw [hscale, hnum]
  simp only [Int.toNat_zero, neg_zero, Nat.pow_eq, pow_zero, mul_one, Nat.mul_div_cancel _ hden,
    hback]
  cases x.readsBack ⟨n + 1, 0⟩ <;> exact Option.some_ne_none _

/-- The shortest decimal is whole exactly if the number is. -/
theorem isWhole_shortest_iff (x : FiniteFloat) (tie : Tie) :
    IsWhole (x.shortest tie).value ↔ IsWhole x.magnitude := by
  constructor
  · rintro ⟨n, hn⟩
    exact (hn ▸ x.isNearestCode_shortest tie : IsNearestCode n x.code).isWhole
  · intro hwhole
    rcases x.shortest_cases tie with ⟨-, hshortest⟩ | hvalue | ⟨hpositive, before, hgrid, hcoarser⟩
    · rw [hshortest]
      exact ⟨0, by simp [Decimal.value]⟩
    · rwa [hvalue]
    · obtain ⟨n, hn⟩ := hwhole
      have hne : n ≠ 0 := by
        rintro rfl
        rw [Nat.cast_zero, magnitude_eq, ← magnitudeOfCode_zero] at hn
        exact hpositive (strictMono_magnitudeOfCode.injective hn)
      obtain ⟨hlog, hall⟩ := onGrid_of_magnitude_eq tie hne hn
      have hlength : (decimalDigits n).length ≠ 0 :=
        fun hnil => decimalDigits_ne_nil n (List.length_eq_zero_iff.mp hnil)
      -- the grid of all digits is not behind the one on which the decimal is found
      have hbefore : before < (decimalDigits n).length := by
        by_contra hle
        exact hall (hcoarser _ hlength (Nat.not_lt.mp hle))
      have hexponent := (of_onGrid_eq_some hgrid).2
      obtain ⟨zeros, hzeros⟩ : ∃ zeros : Nat, (x.shortest tie).exponent = zeros :=
        Int.eq_ofNat_of_zero_le (by omega)
      refine ⟨(x.shortest tie).coefficient * 10 ^ zeros, ?_⟩
      rw [Decimal.value, hzeros, zpow_natCast]
      push_cast
      rfl

/-! ### The range of 64-bit integers -/

/-- The magnitude `2 ^ 63` and its code. -/
theorem magnitudeOfCode_two_pow_63 : magnitudeOfCode (1086 * codesPerBinade) = 2 ^ 63 :=
  (magnitudeOfCode_mul_codesPerBinade 1085).trans (by norm_num)

/-- A number below `2 ^ 63` has a decimal below it. -/
theorem value_shortest_lt (tie : Tie) (h : x.magnitude < 2 ^ 63) :
    (x.shortest tie).value < 2 ^ 63 := by
  rw [← magnitudeOfCode_two_pow_63] at h ⊢
  exact (x.isNearestCode_shortest tie).lt_magnitudeOfCode
    (strictMono_magnitudeOfCode.lt_iff_lt.mp h)

/-- The number `2 ^ 63` itself has a decimal with three zeros at its end, which is larger. -/
theorem shortest_two_pow_63 : ∀ negative : Bool,
    shortest .away ⟨negative, 1086 * codesPerBinade, by decide⟩ = ⟨9223372036854776, 3⟩ := by
  decide +kernel

/-- A number from `2 ^ 63` on has a decimal beyond it. -/
theorem lt_value_shortest (h : 2 ^ 63 ≤ x.magnitude) : 2 ^ 63 < (x.shortest .away).value := by
  rw [← magnitudeOfCode_two_pow_63, magnitude_eq, strictMono_magnitudeOfCode.le_iff_le] at h
  rcases Nat.eq_or_lt_of_le h with heq | hlt
  · obtain ⟨negative, code, hcode⟩ := x
    obtain rfl : 1086 * codesPerBinade = code := heq
    rw [shortest_two_pow_63, Decimal.value]
    norm_num
  · rw [← magnitudeOfCode_two_pow_63]
    exact (x.isNearestCode_shortest .away).magnitudeOfCode_lt hlt

end FiniteFloat

end JsonSelect
