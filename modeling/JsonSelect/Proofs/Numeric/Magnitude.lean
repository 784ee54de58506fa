import Mathlib.Algebra.Order.Field.Power
import Mathlib.Algebra.Order.Field.Rat
import Mathlib.Order.Monotone.Basic
import Mathlib.Tactic.Linarith
import Mathlib.Tactic.NormNum
import Mathlib.Tactic.Positivity
import Mathlib.Tactic.Ring
import JsonSelect.Numeric.Binary64

/-!
# The exact values of floating-point numbers

The magnitudes of all codes form one increasing sequence (`strictMono_magnitudeOfCode`), in which
the step from one magnitude to the next is at least the part `2 ^ (-53)` of the larger one
(`magnitudeOfCode_le_of_lt`).  The magnitudes of a binade are multiples of its spacing, from
`2 ^ 52` times to `2 ^ 53` times that spacing, and the last of them is the first one of the next
binade (`magnitudeOfCode_binade`).

Numbers are therefore ordered by their values as they are on the line of codes
(`FiniteFloat.value_le_value_iff`).
-/

namespace JsonSelect

/-! ### Magnitudes -/

/-- The magnitude that a code stands for.  The codes from that of infinity on stand for what would
follow the finite magnitudes. -/
def magnitudeOfCode (code : Nat) : ℚ :=
  ((if code < codesPerBinade then code else code % codesPerBinade + codesPerBinade : Nat) : ℚ) *
    2 ^ (((max (code / codesPerBinade) 1 : Nat) : Int) - 1075)

/-- The distance between the magnitudes of a binade. -/
def spacing (binade : Nat) : ℚ :=
  2 ^ ((binade : Int) - 1074)

theorem spacing_pos (binade : Nat) : 0 < spacing binade := by
  unfold spacing
  positivity

/-- From one binade to the next, the space doubles. -/
theorem spacing_succ (binade : Nat) : spacing (binade + 1) = 2 * spacing binade := by
  have hexponent : ((binade + 1 : Nat) : Int) - 1074 = (binade : Int) - 1074 + 1 := by
    push_cast
    ring
  rw [spacing, spacing, hexponent, zpow_add_one₀ two_ne_zero, mul_comm]

/-- The magnitudes of a binade are multiples of its spacing.  The first binade begins with zero,
and the others with `2 ^ 52` times their spacing. -/
theorem magnitudeOfCode_binade {binade factor : Nat} (hlow : binade = 0 ∨ codesPerBinade ≤ factor)
    (hhigh : factor ≤ 2 * codesPerBinade) :
    magnitudeOfCode (binade * codesPerBinade + factor) = factor * spacing binade := by
  have hpos : 0 < codesPerBinade := by decide
  have hexponent : ∀ binade : Nat, ((binade + 1 : Nat) : Int) - 1075 = (binade : Int) - 1074 := by
    omega
  rw [magnitudeOfCode]
  rcases Nat.lt_or_ge factor codesPerBinade with hsmall | hlarge
  · obtain rfl : binade = 0 := hlow.resolve_right (Nat.not_le.mpr hsmall)
    rw [Nat.zero_mul, Nat.zero_add, if_pos hsmall, Nat.div_eq_of_lt hsmall,
      Nat.max_eq_right (Nat.zero_le 1), hexponent 0, spacing]
  · rw [if_neg (by omega)]
    rcases Nat.lt_or_ge factor (2 * codesPerBinade) with hinside | hend
    · have hsplit : binade * codesPerBinade + factor =
          factor - codesPerBinade + codesPerBinade * (binade + 1) := by
        rw [Nat.mul_add, Nat.mul_comm codesPerBinade binade]
        omega
      have hrest : factor - codesPerBinade < codesPerBinade := by omega
      rw [hsplit, Nat.add_mul_mod_self_left, Nat.mod_eq_of_lt hrest,
        Nat.add_mul_div_left _ _ hpos, Nat.div_eq_of_lt hrest, Nat.zero_add,
        Nat.max_eq_left (Nat.le_add_left 1 binade), Nat.sub_add_cancel hlarge, hexponent, spacing]
    · obtain rfl : factor = 2 * codesPerBinade := Nat.le_antisymm hhigh hend
      have hsplit : binade * codesPerBinade + 2 * codesPerBinade =
          codesPerBinade * (binade + 1 + 1) := by ring
      rw [hsplit, Nat.mul_mod_right, Nat.mul_div_cancel_left _ hpos, Nat.zero_add,
        Nat.max_eq_left (Nat.le_add_left 1 (binade + 1)), hexponent, ← spacing, spacing_succ]
      push_cast
      ring

/-- Every code belongs to a binade. -/
theorem exists_binade (code : Nat) :
    ∃ binade factor, (binade = 0 ∨ codesPerBinade ≤ factor) ∧ factor < 2 * codesPerBinade ∧
      code = binade * codesPerBinade + factor := by
  have hpos : 0 < codesPerBinade := by decide
  have hmod : code % codesPerBinade < codesPerBinade := Nat.mod_lt _ hpos
  have hdiv : codesPerBinade * (code / codesPerBinade) + code % codesPerBinade = code :=
    Nat.div_add_mod _ _
  cases hbinade : code / codesPerBinade with
  | zero =>
    rw [hbinade] at hdiv
    exact ⟨0, code, Or.inl rfl, by omega, by omega⟩
  | succ binade =>
    rw [hbinade, Nat.mul_succ, Nat.mul_comm] at hdiv
    exact ⟨binade, code % codesPerBinade + codesPerBinade, Or.inr (by omega), by omega, by omega⟩

/-- From a code to the next one the magnitude grows by the spacing of the binade. -/
theorem exists_factor_of_succ (code : Nat) :
    ∃ binade factor : Nat, factor + 1 ≤ 2 ^ 53 ∧
      magnitudeOfCode code = factor * spacing binade ∧
      magnitudeOfCode (code + 1) = (factor + 1) * spacing binade := by
  obtain ⟨binade, factor, hlow, hhigh, rfl⟩ := exists_binade code
  have hnext : binade = 0 ∨ codesPerBinade ≤ factor + 1 := hlow.imp_right Nat.le_succ_of_le
  refine ⟨binade, factor, ?_, magnitudeOfCode_binade hlow hhigh.le, ?_⟩
  · rwa [codesPerBinade, Nat.one_shiftLeft, ← Nat.pow_succ'] at hhigh
  · rw [Nat.add_assoc, magnitudeOfCode_binade hnext hhigh]
    push_cast
    rfl

/-- Greater codes have greater magnitudes. -/
theorem strictMono_magnitudeOfCode : StrictMono magnitudeOfCode := by
  refine strictMono_nat_of_lt_succ fun code => ?_
  obtain ⟨binade, factor, -, hcode, hnext⟩ := exists_factor_of_succ code
  have hspacing := spacing_pos binade
  rw [hcode, hnext]
  linarith

@[simp] theorem magnitudeOfCode_zero : magnitudeOfCode 0 = 0 := by
  simp [magnitudeOfCode, codesPerBinade]

theorem magnitudeOfCode_nonneg (code : Nat) : 0 ≤ magnitudeOfCode code := by
  rw [← magnitudeOfCode_zero]
  exact strictMono_magnitudeOfCode.monotone (Nat.zero_le code)

/-- A multiple of a unit with a factor of 53 bits stays behind the next multiple by a certain part
of it. -/
theorem mul_le_of_add_one_le {a factor unit : ℚ} (hunit : 0 ≤ unit) (h : a + 1 ≤ factor)
    (hfactor : factor ≤ 2 ^ 53) : a * unit ≤ (1 - 1 / 2 ^ 53) * (factor * unit) := by
  have ha : a ≤ (1 - 1 / 2 ^ 53) * factor := by linarith
  calc a * unit
    _ ≤ (1 - 1 / 2 ^ 53) * factor * unit := mul_le_mul_of_nonneg_right ha hunit
    _ = (1 - 1 / 2 ^ 53) * (factor * unit) := mul_assoc _ _ _

/-- Different magnitudes are apart. -/
theorem magnitudeOfCode_le_of_lt {code other : Nat} (h : code < other) :
    magnitudeOfCode code ≤ (1 - 1 / 2 ^ 53) * magnitudeOfCode other := by
  obtain ⟨next, rfl⟩ := Nat.exists_eq_add_one.mpr (Nat.zero_lt_of_lt h)
  obtain ⟨binade, factor, hfactor, hcode, hnext⟩ := exists_factor_of_succ next
  calc magnitudeOfCode code
    _ ≤ magnitudeOfCode next := strictMono_magnitudeOfCode.monotone (Nat.le_of_lt_succ h)
    _ = factor * spacing binade := hcode
    _ ≤ (1 - 1 / 2 ^ 53) * ((factor + 1) * spacing binade) :=
      mul_le_of_add_one_le (spacing_pos binade).le le_rfl (by exact_mod_cast hfactor)
    _ = (1 - 1 / 2 ^ 53) * magnitudeOfCode (next + 1) := by rw [hnext]

/-! ### Signs -/

/-- What is in one order by its absolute values, and zero where these are zero, is in the same
order with signs. -/
theorem signed_le_signed {α β : Type} [AddCommGroup α] [LinearOrder α] [IsOrderedAddMonoid α]
    [AddCommGroup β] [LinearOrder β] [IsOrderedAddMonoid β] {a b : α} {a' b' : β} {s t : Bool}
    (ha : 0 ≤ a) (hb : 0 ≤ b) (ha' : 0 ≤ a') (hb' : 0 ≤ b') (hle : a ≤ b → a' ≤ b')
    (hge : b ≤ a → b' ≤ a') (hzero : a = 0 → a' = 0)
    (h : (if s then -a else a) ≤ if t then -b else b) :
    (if s then -a' else a') ≤ if t then -b' else b' := by
  cases s with
  | false =>
    cases t with
    | false => exact hle h
    | true =>
      have hsum : a ≤ -b := h
      have hazero : a = 0 := le_antisymm (hsum.trans (neg_nonpos.mpr hb)) ha
      have hbzero : b = 0 := le_antisymm (neg_nonneg.mp (ha.trans hsum)) hb
      have hbound : b' ≤ a' := hge (hbzero.trans hazero.symm).le
      have hazero' : a' = 0 := hzero hazero
      change a' ≤ -b'
      rw [hazero'] at hbound ⊢
      exact neg_nonneg.mpr hbound
  | true =>
    cases t with
    | false => exact (neg_nonpos.mpr ha').trans hb'
    | true => exact neg_le_neg (hge (neg_le_neg_iff.mp h))

namespace FiniteFloat

/-- The exact magnitude. -/
def magnitude (x : FiniteFloat) : ℚ :=
  x.significand * 2 ^ x.exponent

/-- The exact value. -/
def value (x : FiniteFloat) : ℚ :=
  if x.negative then -x.magnitude else x.magnitude

/-- The magnitude of a float is that of its code. -/
theorem magnitude_eq (x : FiniteFloat) : x.magnitude = magnitudeOfCode x.code :=
  rfl

theorem magnitude_nonneg (x : FiniteFloat) : 0 ≤ x.magnitude :=
  magnitudeOfCode_nonneg x.code

/-- A significand has at most 53 bits. -/
theorem significand_lt (x : FiniteFloat) : x.significand < 2 ^ 53 := by
  have hmod : x.code % codesPerBinade < codesPerBinade := Nat.mod_lt _ (by decide)
  unfold significand
  simp only [codesPerBinade, Nat.one_shiftLeft] at hmod ⊢
  split <;> omega

/-- The line of codes has the order of the values. -/
theorem value_le_value_iff {x y : FiniteFloat} : x.value ≤ y.value ↔ x.key ≤ y.key := by
  have hcode {x y : FiniteFloat} : x.magnitude ≤ y.magnitude ↔ (x.code : Int) ≤ y.code := by
    rw [magnitude_eq, magnitude_eq, strictMono_magnitudeOfCode.le_iff_le, Int.ofNat_le]
  have hzero {x : FiniteFloat} : x.magnitude = 0 ↔ (x.code : Int) = 0 := by
    rw [magnitude_eq, ← magnitudeOfCode_zero, strictMono_magnitudeOfCode.injective.eq_iff]
    omega
  constructor
  · exact signed_le_signed x.magnitude_nonneg y.magnitude_nonneg (Int.natCast_nonneg _)
      (Int.natCast_nonneg _) hcode.mp hcode.mp hzero.mp
  · exact signed_le_signed (Int.natCast_nonneg _) (Int.natCast_nonneg _) x.magnitude_nonneg
      y.magnitude_nonneg hcode.mpr hcode.mpr hzero.mpr

end FiniteFloat

end JsonSelect
